import EventIngest.Proofs.Custody
import EventIngest.Source.Queue
/-!
# Faithful deliveries

A book tells the bytes of each message. A source that hands out what is in its book leaves nothing
else for a worker to buffer, to write or to reject.
-/
namespace EventIngest

abbrev Book := Handle → Option (List UInt8)

def Book.Extends (new old : Book) : Prop := ∀ h raw, old h = some raw → new h = some raw

def Delivery.IsFrom (book : Book) (d : Delivery) : Prop :=
  ∃ raw, book d.handle = some raw ∧ d = .ofMessage d.handle (some raw)

def Parcel.IsFrom (book : Book) (p : Parcel) : Prop :=
  ∃ raw, book p.handle = some raw ∧ Event.ofBytes raw = .ok p.event

def Malformed.IsFrom (book : Book) (h : Handle) (m : Malformed) : Prop :=
  book h = some m.raw ∧ Event.ofBytes m.raw = .error m.reason

variable {book new : Book}

theorem Parcel.IsFrom.mono {p : Parcel} (h : p.IsFrom book) (hNew : new.Extends book) :
    p.IsFrom new := by
  obtain ⟨raw, hRaw, hEvent⟩ := h
  exact ⟨raw, hNew _ _ hRaw, hEvent⟩

theorem Malformed.IsFrom.mono {h : Handle} {m : Malformed} (hm : m.IsFrom book h)
    (hNew : new.Extends book) : m.IsFrom new h :=
  ⟨hNew _ _ hm.1, hm.2⟩

namespace Delivery.IsFrom

variable {d : Delivery}

theorem mono (h : d.IsFrom book) (hNew : new.Extends book) : d.IsFrom new := by
  obtain ⟨raw, hRaw, hDelivery⟩ := h
  exact ⟨raw, hNew _ _ hRaw, hDelivery⟩

theorem ofMessage {h : Handle} {raw : List UInt8} (hRaw : book h = some raw) :
    (Delivery.ofMessage h (some raw)).IsFrom book :=
  ⟨raw, hRaw, rfl⟩

theorem parcel (h : d.IsFrom book) {p : Parcel} (hParcel : d.parcel? = some p) :
    p.IsFrom book := by
  obtain ⟨raw, hRaw, hDelivery⟩ := h
  obtain rfl := parcel?_eq_some hParcel
  refine ⟨raw, hRaw, ?_⟩
  have hContent := congrArg Delivery.content hDelivery
  simp only [Delivery.ofMessage, Option.getD_some] at hContent
  cases hEvent : Event.ofBytes raw with
  | ok event => simp_all
  | error reason => simp [hEvent] at hContent

theorem refusal (h : d.IsFrom book) {handle : Handle} {m : Malformed}
    (hRefusal : d.refusal? = some (handle, m)) : m.IsFrom book handle := by
  obtain ⟨raw, hRaw, hDelivery⟩ := h
  obtain rfl := refusal?_eq_some hRefusal
  have hContent := congrArg Delivery.content hDelivery
  simp only [Delivery.ofMessage, Option.getD_some] at hContent
  cases hEvent : Event.ofBytes raw with
  | ok event => simp [hEvent] at hContent
  | error reason =>
    simp only [hEvent, Except.error.injEq] at hContent
    rw [hContent]
    exact ⟨hRaw, hEvent⟩

end Delivery.IsFrom

def Fetch.deliveries : Fetch Waiting → List Delivery
  | .answered (.ok deliveries) => deliveries
  | .waiting _ call => call.collected
  | _ => []

def Batch.offsets (b : Batch) : List Int := b.map (·.handle.offset)

@[simp] theorem Batch.offsets_append (a b : Batch) : offsets (a ++ b) = offsets a ++ offsets b :=
  List.map_append

@[simp] theorem Batch.offsets_singleton (p : Parcel) : offsets [p] = [p.handle.offset] := rfl

def Delivery.offsets (deliveries : List Delivery) : List Int := deliveries.map (·.handle.offset)

@[simp] theorem Delivery.offsets_append (a b : List Delivery) :
    offsets (a ++ b) = offsets a ++ offsets b := List.map_append

@[simp] theorem Delivery.offsets_cons (d : Delivery) (ds : List Delivery) :
    offsets (d :: ds) = d.handle.offset :: offsets ds := rfl

@[simp] theorem Delivery.offsets_nil : offsets [] = [] := rfl

def Delivery.handlesAt (o : Int) (deliveries : List Delivery) : List Handle :=
  (deliveries.map (·.handle)).filter (·.offset == o)

@[simp] theorem Delivery.handlesAt_nil (o : Int) : handlesAt o [] = [] := rfl

@[simp] theorem Delivery.handlesAt_append (o : Int) (a b : List Delivery) :
    handlesAt o (a ++ b) = handlesAt o a ++ handlesAt o b := by
  simp [handlesAt]

theorem Delivery.mem_handlesAt {o : Int} {deliveries : List Delivery} {h : Handle} :
    h ∈ handlesAt o deliveries ↔ (∃ d ∈ deliveries, d.handle = h) ∧ h.offset = o := by
  simp [handlesAt]

theorem Delivery.handlesAt_eq_nil {o : Int} {deliveries : List Delivery} :
    handlesAt o deliveries = [] ↔ o ∉ offsets deliveries := by
  simp [handlesAt, offsets, List.filter_eq_nil_iff]

namespace Custody

def collected (c : Custody Waiting) : List Delivery := (c.call.map (·.collected)).getD []

/-- What was handed out for the worker and was not looked at. -/
def inHand (c : Custody Waiting) : List Delivery := c.coming ++ c.collected

open Deed in
/-- All that was handed out for the worker while it did these deeds, and that it did not let go. -/
def given (c : Custody Waiting) (deeds : List Deed) : List Delivery :=
  allArrivals deeds ++ c.collected

open Deed in
theorem given_append (c : Custody Waiting) (deeds new : List Deed) :
    c.given (deeds ++ new) = allArrivals deeds ++ c.given new := by
  rw [given, given, allArrivals_append, List.append_assoc]

theorem inHand_fetched {c : Custody Waiting} (hComing : c.coming = []) (f : Fetch Waiting) :
    (c.fetched f).inHand = f.deliveries := by
  match f with
  | .answered (.ok _) | .answered (.error _) | .waiting .. | .stalled | .crashed =>
    simp [inHand, fetched, collected, Fetch.deliveries, hComing]

theorem given_fetched (c : Custody Waiting) (f : Fetch Waiting) :
    (c.fetched f).given f.deeds = f.deliveries := by
  match f with
  | .answered (.ok _) | .answered (.error _) | .waiting .. | .stalled | .crashed =>
    simp [given, fetched, collected, Fetch.deeds, Fetch.deliveries, Deed.allArrivals,
      Deed.arrivals]

theorem fetched_owing (c : Custody Waiting) (f : Fetch Waiting) :
    (c.fetched f).owing = c.owing := by
  match f with
  | .answered (.ok _) | .answered (.error _) | .waiting .. | .stalled | .crashed => rfl

def offsets (c : Custody Waiting) : List Int :=
  c.held.offsets ++ Delivery.offsets c.coming ++ Delivery.offsets c.collected

theorem mem_offsets_of_inHand (c : Custody Waiting) {d : Delivery} (hd : d ∈ c.inHand) :
    d.handle.offset ∈ c.offsets := by
  rw [offsets, List.append_assoc, ← Delivery.offsets_append]
  exact List.mem_append_right _ (List.mem_map_of_mem hd)

theorem offsets_fetched {c : Custody Waiting} (hComing : c.coming = []) (f : Fetch Waiting) :
    (c.fetched f).offsets = c.held.offsets ++ Delivery.offsets f.deliveries := by
  match f with
  | .answered (.ok _) | .answered (.error _) | .waiting .. | .stalled | .crashed =>
    simp [offsets, fetched, collected, Fetch.deliveries, hComing]

theorem offsets_take {c : Custody Waiting} {d : Delivery} {rest : List Delivery}
    (hComing : c.coming = d :: rest) :
    c.offsets.Perm (d.handle.offset :: { c with coming := rest }.offsets) := by
  simp only [offsets, collected, hComing, Delivery.offsets_cons, List.append_assoc]
  exact List.perm_middle

theorem offsets_accept {c : Custody Waiting} {p : Parcel} {rest : List Delivery}
    (hComing : c.coming = ⟨p.handle, .ok p.event⟩ :: rest) :
    { c with coming := rest, held := c.held ++ [p] }.offsets = c.offsets := by
  simp [offsets, collected, hComing]

theorem offsets_settle {c : Custody Waiting} {batch kept : Batch}
    (hHeld : c.held = batch ++ kept) :
    c.offsets = batch.offsets ++ { c with held := kept }.offsets := by
  simp [offsets, collected, hHeld]

end Custody

open Deed

structure Custody.Faithful (book : Book) (c : Custody Waiting) (deeds : List Deed) : Prop where
  collected : ∀ d ∈ c.collected, d.IsFrom book
  coming : ∀ d ∈ c.coming, d.IsFrom book
  held : ∀ p ∈ c.held, p.IsFrom book
  batches : ∀ p ∈ allBatches deeds, p.IsFrom book
  refusals : ∀ r ∈ allRefusals deeds, r.2.IsFrom book r.1

namespace Custody.Faithful

variable {σ : Type} {c c' : Custody Waiting} {deeds : List Deed}

theorem start (book : Book) : Faithful book {} [] :=
  ⟨List.forall_mem_nil _, List.forall_mem_nil _, List.forall_mem_nil _, List.forall_mem_nil _,
    List.forall_mem_nil _⟩

theorem mono (h : c.Faithful book deeds) (hNew : new.Extends book) : c.Faithful new deeds :=
  ⟨fun d hd => (h.collected d hd).mono hNew, fun d hd => (h.coming d hd).mono hNew,
    fun p hp => (h.held p hp).mono hNew, fun p hp => (h.batches p hp).mono hNew,
    fun r hr => (h.refusals r hr).mono hNew⟩

theorem concat (h : c.Faithful book deeds) {d : Deed}
    (hCollected : ∀ d ∈ c'.collected, d.IsFrom book) (hComing : ∀ d ∈ c'.coming, d.IsFrom book)
    (hHeld : ∀ p ∈ c'.held, p.IsFrom book) (hBatch : ∀ p ∈ d.batch, p.IsFrom book)
    (hRefusal : ∀ r ∈ d.refusal?, r.2.IsFrom book r.1) :
    c'.Faithful book (deeds ++ [d]) := by
  refine ⟨hCollected, hComing, hHeld, ?_, ?_⟩
  · intro p hp
    rw [allBatches_append, allBatches_singleton, List.mem_append] at hp
    exact hp.elim (h.batches p) (hBatch p)
  · intro r hr
    rw [allRefusals_append, allRefusals_singleton, List.mem_append, Option.mem_toList] at hr
    exact hr.elim (h.refusals r) (hRefusal r)

theorem concat_idle (h : c.Faithful book deeds) {d : Deed}
    (hCollected : ∀ d ∈ c'.collected, d.IsFrom book) (hComing : ∀ d ∈ c'.coming, d.IsFrom book)
    (hHeld : ∀ p ∈ c'.held, p.IsFrom book) (hBatch : d.batch = []) (hRefusal : d.refusal? = none) :
    c'.Faithful book (deeds ++ [d]) := by
  refine h.concat hCollected hComing hHeld ?_ ?_
  · rw [hBatch]
    exact List.forall_mem_nil _
  · rw [hRefusal]
    exact fun _ hr => absurd hr (Option.not_mem_none _)

theorem known (h : c.Faithful book deeds) {d : Deed} (hd : d ∈ deeds) {handle : Handle}
    (hHandle : handle ∈ d.handles) : ∃ raw, book handle = some raw := by
  rcases List.mem_append.mp hHandle with hBatch | hRefusal
  · obtain ⟨p, hp, rfl⟩ := List.mem_map.mp hBatch
    obtain ⟨raw, hRaw, -⟩ := h.batches p (List.mem_flatMap.mpr ⟨d, hd, hp⟩)
    exact ⟨raw, hRaw⟩
  · obtain ⟨r, hr, rfl⟩ := List.mem_map.mp hRefusal
    obtain ⟨hRaw, -⟩ := h.refusals r (List.mem_filterMap.mpr ⟨d, hd, Option.mem_toList.mp hr⟩)
    exact ⟨r.2.raw, hRaw⟩

theorem fetched (h : c.Faithful book deeds) (f : Fetch Waiting)
    (hFetch : ∀ d ∈ f.deliveries, d.IsFrom book) : (c.fetched f).Faithful book (deeds ++ f.deeds) := by
  have hNone : ∀ d ∈ ([] : List Delivery), d.IsFrom book := List.forall_mem_nil _
  match f with
  | .answered (.ok deliveries) => exact h.concat_idle hNone hFetch h.held rfl rfl
  | .answered (.error e) => exact h.concat_idle hNone h.coming h.held rfl rfl
  | .stalled => exact h.concat_idle hNone h.coming h.held rfl rfl
  | .waiting time call =>
    rw [Fetch.deeds, List.append_nil]
    exact ⟨hFetch, h.coming, h.held, h.batches, h.refusals⟩
  | .crashed =>
    rw [Fetch.deeds, List.append_nil]
    exact ⟨hNone, h.coming, h.held, h.batches, h.refusals⟩

/-- As long as fetches bring what is in the book, so do all deeds deal with what is in it. -/
theorem move {intake : Source σ Waiting} {settings : WorkerSettings} {s s' : σ} {new : List Deed}
    (h : c.Faithful book deeds) (hMove : Move intake settings c s new c' s')
    (hFetch : ∀ max wait, ∀ d ∈ (intake.fetch s max wait).1.deliveries, d.IsFrom book)
    (hResume : ∀ call ∈ c.call, ∀ d ∈ (intake.resume s call).1.deliveries, d.IsFrom book) :
    c'.Faithful book (deeds ++ new) := by
  cases hMove with
  | rest => rwa [List.append_nil]
  | leave =>
    rw [List.append_nil]
    exact ⟨List.forall_mem_nil _, h.coming, h.held, h.batches, h.refusals⟩
  | fetch s max wait =>
    have hAsk : c.Faithful book (deeds ++ [.ask max wait]) :=
      h.concat_idle h.collected h.coming h.held rfl rfl
    have hFetched := hAsk.fetched _ (hFetch max wait)
    rwa [List.append_assoc] at hFetched
  | resume s call hCall => exact h.fetched _ (hResume call hCall)
  | accept s hComing hParcel =>
    have hFrom := h.coming _ (hComing ▸ List.mem_cons_self)
    refine h.concat_idle h.collected ?_ ?_ rfl rfl
    · exact fun d hd => h.coming d (hComing ▸ List.mem_cons_of_mem _ hd)
    · intro p hp
      rcases List.mem_append.mp hp with hp | hp
      · exact h.held p hp
      · obtain rfl := List.mem_singleton.mp hp
        exact hFrom.parcel hParcel
  | reject s hComing hRefusal =>
    have hFrom := h.coming _ (hComing ▸ List.mem_cons_self)
    refine h.concat h.collected ?_ h.held (List.forall_mem_nil _) ?_
    · exact fun d hd => h.coming d (hComing ▸ List.mem_cons_of_mem _ hd)
    · intro r hr
      obtain rfl := Option.some.inj hr
      exact hFrom.refusal hRefusal
  | commit => exact h.concat_idle h.collected h.coming h.held rfl rfl
  | store s hHeld | giveUp s hHeld =>
    refine h.concat h.collected h.coming ?_ ?_ fun _ hr => absurd hr (Option.not_mem_none _)
    · exact fun p hp => h.held p (hHeld ▸ List.mem_append_right _ hp)
    · intro p hp
      simp only [batch, Source.batchOf_each] at hp
      exact h.held p (hHeld ▸ List.mem_append_left _ hp)

end Custody.Faithful

end EventIngest
