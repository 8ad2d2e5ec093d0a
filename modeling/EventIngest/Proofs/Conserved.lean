import EventIngest.Proofs.Answered
import EventIngest.Proofs.Faithful
import EventIngest.Proofs.PoolCourse
import EventIngest.Store.Planned
/-!
# Conservation over a queue

What was published is in the queue, with the worker or acknowledged, and nowhere twice. A message
leaves through a batch that was stored or through the messages that were put aside.
-/
namespace EventIngest

open Deed

namespace Queue

/-- The offsets of all messages that there ever were. -/
def published (q : Queue) : List Int := (List.range q.payloads.size).map (Nat.cast ·)

def isDecodable (q : Queue) (id : Int) : Bool := (q.delivery (id, 1)).isDecoded

def book (q : Queue) : Book := fun h => q.payload? h.offset

/-- What others do to a queue while a worker takes from it. -/
inductive Act where
  | publish (payload : List UInt8)
  | failFetches (n : Nat)
  | refuseDeadLetters (refuses : Bool)

def act (q : Queue) : Act → Queue
  | .publish payload => q.publish payload
  | .failFetches n => { q with failingFetches := n }
  | .refuseDeadLetters refuses => { q with refusesDeadLetters := refuses }

theorem mem_published {q : Queue} {id : Int} :
    id ∈ q.published ↔ ∃ n < q.payloads.size, (n : Int) = id := by
  simp [published]

theorem published_publish (q : Queue) (payload : List UInt8) :
    (q.publish payload).published = q.published ++ [(q.payloads.size : Int)] := by
  simp [published, publish, List.range_succ]

theorem exists_payload {q : Queue} {id : Int} (h : id ∈ q.published) :
    ∃ raw, q.payload? id = some raw := by
  obtain ⟨n, hn, rfl⟩ := mem_published.mp h
  exact ⟨q.payloads[n], by simp [payload?, hn]⟩

theorem payload?_publish {q : Queue} {id : Int} {raw : List UInt8} (hRaw : q.payload? id = some raw)
    (payload : List UInt8) : (q.publish payload).payload? id = some raw := by
  simp only [payload?, publish] at hRaw ⊢
  split
  · simp_all
  · rename_i hNonneg
    rw [if_neg hNonneg] at hRaw
    rw [Array.getElem?_push]
    have hLess : id.toNat < q.payloads.size := (Array.getElem?_eq_some_iff.mp hRaw).1
    rw [if_neg (by omega), hRaw]

theorem isDecodable_publish {q : Queue} {id : Int} (h : id ∈ q.published)
    (payload : List UInt8) : (q.publish payload).isDecodable id = q.isDecodable id := by
  obtain ⟨raw, hRaw⟩ := exists_payload h
  simp only [isDecodable, delivery, payload?_publish hRaw payload, hRaw]

theorem isDecodable_of_parcel {q : Queue} {p : Parcel} (h : p.IsFrom q.book) :
    q.isDecodable p.handle.offset = true := by
  obtain ⟨raw, hRaw, hEvent⟩ := h
  rw [book] at hRaw
  simp [isDecodable, delivery, hRaw, Delivery.ofMessage, Delivery.isDecoded, hEvent]

theorem isDecodable_of_malformed {q : Queue} {h : Handle} {m : Malformed}
    (hm : m.IsFrom q.book h) : q.isDecodable h.offset = false := by
  obtain ⟨hRaw, hReason⟩ := hm
  rw [book] at hRaw
  simp [isDecodable, delivery, hRaw, Delivery.ofMessage, Delivery.isDecoded, hReason]

/-- A fetch that stands like this leaves the queue like this. -/
structure HandsOut (q : Queue) (f : Fetch Waiting) (q' : Queue) : Prop where
  payloads : q'.payloads = q.payloads
  acked : q'.acked = q.acked
  deadLettered : q'.deadLettered = q.deadLettered
  ids : (q'.queued.map Prod.fst ++ Delivery.offsets f.deliveries).Perm (q.queued.map Prod.fst)
  collected : ∀ time call, f = .waiting time call → call.collected = []
  isFrom : (∀ m ∈ q.queued, m.1 ∈ q.published) → ∀ d ∈ f.deliveries, d.IsFrom q.book

theorem delivery_isFrom {q : Queue} {m : Int × Nat} (h : m.1 ∈ q.published) :
    (q.delivery m).IsFrom q.book := by
  obtain ⟨raw, hRaw⟩ := exists_payload h
  rw [delivery, hRaw]
  have hBook : q.book ⟨0, m.1, m.2⟩ = some raw := hRaw
  exact .ofMessage hBook

theorem offsets_delivery (q : Queue) (messages : List (Int × Nat)) :
    Delivery.offsets (messages.map q.delivery) = messages.map Prod.fst := by
  simp [Delivery.offsets, delivery, Delivery.ofMessage, Function.comp_def]

theorem handsOut_obstacle (q : Queue) (obstacle : Obstacle) : q.HandsOut obstacle.fetch q := by
  refine ⟨rfl, rfl, rfl, ?_, ?_, ?_⟩
  · cases obstacle <;> simp [Obstacle.fetch, Fetch.deliveries]
  · intro time call hWaiting
    cases obstacle <;> cases hWaiting
  · cases obstacle <;> exact fun _ => List.forall_mem_nil _

theorem take_handsOut (q : Queue) (max : Nat) :
    q.HandsOut (.answered (q.take max).1) (q.take max).2 := by
  have hAnswered : ∀ result time call,
      (.answered result : Fetch Waiting) = .waiting time call → call.collected = [] := by
    intro result time call hWaiting
    cases hWaiting
  simp only [take]
  split
  · refine ⟨rfl, rfl, rfl, by simp [Fetch.deliveries], hAnswered _, ?_⟩
    exact fun _ => List.forall_mem_nil _
  · refine ⟨rfl, rfl, rfl, ?_, hAnswered _, ?_⟩
    · simp only [Fetch.deliveries, offsets_delivery, ← List.map_append]
      refine List.Perm.map _ (List.perm_append_comm.trans ?_)
      rw [List.take_append_drop]
    · intro hQueued d hd
      obtain ⟨m, hm, rfl⟩ := List.mem_map.mp hd
      exact delivery_isFrom (hQueued m (List.mem_of_mem_take hm))

theorem fetch_handsOut (q : Queue) (max : Nat) (wait : Duration) :
    q.HandsOut (source.fetch q max wait).1 (source.fetch q max wait).2 := by
  have hTake := take_handsOut q max
  simp only [source]
  generalize q.take max = r at hTake ⊢
  obtain ⟨e | _ | ⟨d, ds⟩, q'⟩ := r
  · exact hTake
  · refine ⟨hTake.payloads, hTake.acked, hTake.deadLettered, hTake.ids, ?_,
      fun _ => List.forall_mem_nil _⟩
    intro time call hWaiting
    cases hWaiting
    rfl
  · exact hTake

theorem guarded_fetch_handsOut {γ : Type} (guard : Guard γ) (s : γ × Queue) (max : Nat)
    (wait : Duration) :
    s.2.HandsOut ((source.guarded guard).fetch s max wait).1
      ((source.guarded guard).fetch s max wait).2.2 := by
  obtain ⟨hFetch, hQueue⟩ | ⟨obstacle, hFetch, hQueue⟩ := guard.fetch_cases source s max wait
  · rw [hFetch, hQueue]
    exact fetch_handsOut s.2 max wait
  · rw [hFetch, hQueue]
    exact handsOut_obstacle s.2 obstacle

section Settling

variable {γ : Type} (guard : Guard γ)

def acknowledge (q : Queue) (h : Handle) : Queue := { q with acked := q.acked.push h.offset }

def giveBack (q : Queue) (h : Handle) : Queue :=
  { q with
    returned := q.returned.push h.offset
    queued := q.queued ++ [(h.offset, h.deliveryCount + 1)] }

theorem foldl_acknowledge (q : Queue) (b : Batch) :
    b.handles.foldl acknowledge q = { q with acked := q.acked ++ b.offsets.toArray } := by
  induction b generalizing q with
  | nil => simp [Batch.handles, Batch.offsets]
  | cons p ps ih =>
    refine (ih (q.acknowledge p.handle)).trans ?_
    simp [acknowledge, Batch.offsets]

theorem foldl_giveBack (q : Queue) (b : Batch) :
    b.handles.foldl giveBack q = { q with
      returned := q.returned ++ b.offsets.toArray
      queued := q.queued ++ b.map fun p => (p.handle.offset, p.handle.deliveryCount + 1) } := by
  induction b generalizing q with
  | nil => simp [Batch.handles, Batch.offsets]
  | cons p ps ih =>
    refine (ih (q.giveBack p.handle)).trans ?_
    simp [giveBack, Batch.offsets]

theorem ack_passes : Passes (source.guarded guard).ack acknowledge :=
  guarded_ack_passes guard fun _ _ => rfl

theorem nak_passes : Passes (source.guarded guard).nak giveBack :=
  guarded_nak_passes guard fun _ _ => rfl

variable {guard} {b : Batch} {s : γ × Queue}

theorem each_ack (hAll : answered (Source.each (source.guarded guard).ack b s).1 = b.handles) :
    (Source.each (source.guarded guard).ack b s).2.2
      = { s.2 with acked := s.2.acked ++ b.offsets.toArray } := by
  rw [each_passes (ack_passes guard), hAll, foldl_acknowledge]

theorem each_nak (hAll : answered (Source.each (source.guarded guard).nak b s).1 = b.handles) :
    (Source.each (source.guarded guard).nak b s).2.2
      = { s.2 with
          returned := s.2.returned ++ b.offsets.toArray
          queued := s.2.queued ++ b.map fun p => (p.handle.offset, p.handle.deliveryCount + 1) } := by
  rw [each_passes (nak_passes guard), hAll, foldl_giveBack]

theorem guarded_commit (guard : Guard γ) (s : γ × Queue) :
    ∃ n, ((source.guarded guard).commit s).2.2 = { s.2 with commits := n } := by
  obtain ⟨-, -, hQueue⟩ | ⟨e, -, -, hQueue⟩ :=
    Guard.pass_cases (guard.commit s.1) (source.commit s.2) s.2
  · exact ⟨s.2.commits + 1, hQueue⟩
  · exact ⟨s.2.commits, hQueue⟩

theorem guarded_deadLetter (guard : Guard γ) (s : γ × Queue) (h : Handle) (raw : List UInt8)
    (reason : String) :
    let r := (source.guarded guard).deadLetter s h raw reason
    (r.1 = .ok () ∧ r.2.2 = { s.2 with deadLettered := s.2.deadLettered.push h.offset }) ∨
    (∃ e, r.1 = .error e ∧ r.2.2 = s.2) := by
  obtain ⟨-, hAnswer, hQueue⟩ | ⟨e, -, hAnswer, hQueue⟩ := Guard.pass_cases
    (guard.deadLetter s.1 h) (source.deadLetter s.2 h raw reason) s.2
  · simp only [Source.guarded]
    rw [hAnswer, hQueue]
    simp only [source]
    split
    · exact .inr ⟨_, rfl, rfl⟩
    · exact .inl ⟨rfl, rfl⟩
  · exact .inr ⟨e, hAnswer, hQueue⟩

theorem guarded_refuse {maxDeliver : Nat} {h : Handle} {m : Malformed} {s : γ × Queue}
    (hThrough : (Deed.reject h m ((source.guarded guard).refuse maxDeliver h m s).1
      ((source.guarded guard).refuse maxDeliver h m s).2.1).IsThrough) :
    let q' := ((source.guarded guard).refuse maxDeliver h m s).2.2.2
    q' = acknowledge { s.2 with deadLettered := s.2.deadLettered.push h.offset } h ∨
      q' = s.2.giveBack h := by
  have hLetter := guarded_deadLetter guard s h m.raw m.reason.message
  obtain hRefuse | ⟨u, hOk, hRefuse⟩ | ⟨e, hError, hRefuse⟩ :=
    (source.guarded guard).refuse_cases maxDeliver h m s
  · right
    simp only [hRefuse] at hThrough ⊢
    obtain ⟨-, hQueue⟩ | ⟨e, hAnswer, -⟩ := nak_passes guard s h
    · exact hQueue
    · rw [hAnswer] at hThrough
      cases hThrough
  · left
    simp only [hRefuse] at hThrough ⊢
    obtain ⟨-, hAside⟩ | ⟨e, hError, -⟩ := hLetter
    · obtain ⟨-, hQueue⟩ | ⟨e, hAnswer, -⟩ := ack_passes guard
        ((source.guarded guard).deadLetter s h m.raw m.reason.message).2 h
      · rw [hQueue, hAside]
      · rw [hAnswer] at hThrough
        cases hThrough
    · rw [hOk] at hError
      cases hError
  · right
    simp only [hRefuse] at hThrough ⊢
    obtain ⟨hOk, -⟩ | ⟨e, -, hAside⟩ := hLetter
    · rw [hOk] at hError
      cases hError
    · obtain ⟨-, hQueue⟩ | ⟨e, hAnswer, -⟩ := nak_passes guard
        ((source.guarded guard).deadLetter s h m.raw m.reason.message).2 h
      · rw [hQueue, hAside]
      · rw [hAnswer] at hThrough
        cases hThrough

end Settling

/-- What happens to the messages of a queue while a worker that has custody of some does these
deeds. -/
structure Conserved (q : Queue) (c : Custody Waiting) (deeds : List Deed) : Prop where
  faithful : c.Faithful q.book deeds
  /-- A fetch that waits holds nothing back. -/
  collected : c.collected = []
  ids : (q.queued.map Prod.fst ++ c.offsets ++ q.acked.toList).Perm q.published
  stored : (Batch.offsets (storedBatches deeds).flatten).Perm (q.acked.toList.filter q.isDecodable)
  aside : q.deadLettered.toList.Perm (q.acked.toList.filter (!q.isDecodable ·))

theorem conserved_start : Conserved {} {} [] :=
  ⟨.start _, rfl, .nil, .nil, .nil⟩

namespace Conserved

variable {q q' : Queue} {c c' : Custody Waiting} {deeds new : List Deed}

theorem act (h : Conserved q c deeds) (a : Act) : Conserved (q.act a) c deeds := by
  cases a with
  | failFetches n => exact ⟨h.faithful, h.collected, h.ids, h.stored, h.aside⟩
  | refuseDeadLetters refuses => exact ⟨h.faithful, h.collected, h.ids, h.stored, h.aside⟩
  | publish payload =>
    have hAcked : ∀ id ∈ q.acked.toList, (q.publish payload).isDecodable id = q.isDecodable id := by
      intro id hid
      exact isDecodable_publish (h.ids.mem_iff.mp (List.mem_append_right _ hid)) payload
    refine ⟨h.faithful.mono fun _ _ hRaw => payload?_publish hRaw payload, h.collected, ?_, ?_, ?_⟩
    · have hIds := h.ids
      simp only [Queue.act, published_publish, List.perm_iff_count] at hIds ⊢
      intro id
      have hId := hIds id
      simp only [publish, List.map_append, List.map_cons, List.map_nil, List.count_append] at hId ⊢
      omega
    · simp only [Queue.act]
      rw [show (q.publish payload).acked = q.acked from rfl, List.filter_congr hAcked]
      exact h.stored
    · simp only [Queue.act]
      rw [show (q.publish payload).acked = q.acked from rfl,
        List.filter_congr fun id hid => by rw [hAcked id hid]]
      exact h.aside

/-- What is acknowledged more has left the queue or the custody, into a batch that was stored or
among the messages that were put aside. -/
theorem change (h : Conserved q c deeds) {more aside : List Int}
    (hPayloads : q'.payloads = q.payloads) (hFaithful : c'.Faithful q.book (deeds ++ new))
    (hCollected : c'.collected = []) (hAcked : q'.acked.toList = q.acked.toList ++ more)
    (hLetters : q'.deadLettered.toList = q.deadLettered.toList ++ aside)
    (hIds : (q'.queued.map Prod.fst ++ c'.offsets ++ more).Perm (q.queued.map Prod.fst ++ c.offsets))
    (hStored : (Batch.offsets (storedBatches new).flatten).Perm (more.filter q.isDecodable))
    (hAside : aside.Perm (more.filter (!q.isDecodable ·))) : Conserved q' c' (deeds ++ new) := by
  have hPayload : q'.payload? = q.payload? := by
    funext id
    simp only [payload?, hPayloads]
  have hDecodable : q'.isDecodable = q.isDecodable := by
    funext id
    simp only [isDecodable, delivery, hPayload]
  have hBook : q'.book = q.book := by
    funext h
    simp only [book, hPayload]
  refine ⟨hBook ▸ hFaithful, hCollected, ?_, ?_, ?_⟩
  · have hAll := h.ids
    rw [published, hPayloads, ← published]
    refine List.Perm.trans ?_ hAll
    rw [hAcked, ← List.append_assoc]
    simp only [List.perm_iff_count, List.count_append] at hIds ⊢
    intro id
    have hId := hIds id
    omega
  · rw [storedBatches_append, List.flatten_append, Batch.offsets_append, hAcked, hDecodable,
      List.filter_append]
    exact h.stored.append hStored
  · rw [hLetters, hAcked, hDecodable, List.filter_append]
    exact h.aside.append hAside

theorem keep (h : Conserved q c deeds) (hPayloads : q'.payloads = q.payloads)
    (hFaithful : c'.Faithful q.book (deeds ++ new)) (hCollected : c'.collected = [])
    (hAcked : q'.acked = q.acked) (hLetters : q'.deadLettered = q.deadLettered)
    (hIds : (q'.queued.map Prod.fst ++ c'.offsets).Perm (q.queued.map Prod.fst ++ c.offsets))
    (hStored : storedBatches new = []) : Conserved q' c' (deeds ++ new) := by
  have hNoMore : q'.acked.toList = q.acked.toList ++ [] := by rw [hAcked, List.append_nil]
  have hNoLetters : q'.deadLettered.toList = q.deadLettered.toList ++ [] := by
    rw [hLetters, List.append_nil]
  refine h.change hPayloads hFaithful hCollected hNoMore hNoLetters ?_ ?_ .nil
  · rwa [List.append_nil]
  · rw [hStored]
    exact .nil

theorem queued_published (h : Conserved q c deeds) : ∀ m ∈ q.queued, m.1 ∈ q.published := by
  intro m hm
  apply h.ids.mem_iff.mp
  exact List.mem_append_left _ (List.mem_append_left _ (List.mem_map_of_mem hm))

theorem fetched (h : Conserved q c deeds) (hComing : c.coming = []) {f : Fetch Waiting}
    (hOut : q.HandsOut f q') (hFaithful : (c.fetched f).Faithful q.book (deeds ++ new))
    (hStored : storedBatches new = []) : Conserved q' (c.fetched f) (deeds ++ new) := by
  have hOffsets : c.offsets = c.held.offsets := by
    rw [Custody.offsets, hComing, h.collected]
    simp
  have hCollected : (c.fetched f).collected = [] := by
    cases f with
    | answered result => cases result <;> rfl
    | waiting time call => exact hOut.collected time call rfl
    | stalled | crashed => rfl
  refine h.keep hOut.payloads hFaithful hCollected hOut.acked hOut.deadLettered ?_ hStored
  have hIds := hOut.ids
  rw [Custody.offsets_fetched hComing, hOffsets]
  simp only [List.perm_iff_count, List.count_append] at hIds ⊢
  intro id
  have hId := hIds id
  omega

section Settled

variable {handle : Handle} {m : Malformed} {rest : List Delivery} {letter : Option Answer}
  {answer : Answer} {batch kept : Batch} {parcels : List (Parcel × Answer)}
  {failures : List StoreError}

theorem taken_perm (hComing : c.coming = ⟨handle, .error m⟩ :: rest) :
    ((q.queued.map Prod.fst ++ { c with coming := rest, owing := true }.offsets) ++ [handle.offset]).Perm
      (q.queued.map Prod.fst ++ c.offsets) := by
  rw [List.append_assoc]
  refine List.Perm.append_left _ ?_
  exact List.perm_append_comm.trans (Custody.offsets_take hComing).symm

theorem putAside (h : Conserved q c deeds) (hComing : c.coming = ⟨handle, .error m⟩ :: rest)
    (hFaithful : { c with coming := rest, owing := true }.Faithful q.book
      (deeds ++ [Deed.reject handle m letter answer])) :
    Conserved (acknowledge { q with deadLettered := q.deadLettered.push handle.offset } handle)
      { c with coming := rest, owing := true } (deeds ++ [Deed.reject handle m letter answer]) := by
  have hUndecodable : q.isDecodable handle.offset = false :=
    isDecodable_of_malformed (hFaithful.refusals (handle, m) (by simp [refusal?]))
  have hMore : (q.acked.push handle.offset).toList = q.acked.toList ++ [handle.offset] :=
    Array.toList_push
  have hLetters : (q.deadLettered.push handle.offset).toList
    = q.deadLettered.toList ++ [handle.offset] := Array.toList_push
  refine h.change rfl hFaithful h.collected hMore hLetters (taken_perm hComing) ?_ ?_
  · simp [storedBatches, storedBatch?, Batch.offsets, hUndecodable]
  · simp [hUndecodable]

theorem handBack (h : Conserved q c deeds) (hComing : c.coming = ⟨handle, .error m⟩ :: rest)
    (hFaithful : { c with coming := rest, owing := true }.Faithful q.book
      (deeds ++ [Deed.reject handle m letter answer])) :
    Conserved (q.giveBack handle) { c with coming := rest, owing := true }
      (deeds ++ [Deed.reject handle m letter answer]) := by
  refine h.keep rfl hFaithful h.collected rfl rfl (List.Perm.trans ?_ (taken_perm hComing)) rfl
  simp only [List.perm_iff_count, giveBack, List.map_append, List.map_cons, List.map_nil,
    List.count_append]
  intro id
  omega

theorem store (h : Conserved q c deeds) (hHeld : c.held = batch ++ kept)
    (hBatch : batchOf parcels = batch)
    (hFaithful : { c with held := kept }.Faithful q.book
      (deeds ++ [Deed.store parcels failures answer])) (n : Nat) :
    Conserved { q with acked := q.acked ++ batch.offsets.toArray, commits := n }
      { c with held := kept } (deeds ++ [Deed.store parcels failures answer]) := by
  have hDecodable : ∀ o ∈ batch.offsets, q.isDecodable o = true := by
    intro o ho
    obtain ⟨p, hp, rfl⟩ := List.mem_map.mp ho
    exact isDecodable_of_parcel (h.faithful.held p (hHeld ▸ List.mem_append_left _ hp))
  have hMore : (q.acked ++ batch.offsets.toArray).toList = q.acked.toList ++ batch.offsets := by
    simp
  have hNoLetters : q.deadLettered.toList = q.deadLettered.toList ++ [] :=
    (List.append_nil _).symm
  refine h.change rfl hFaithful h.collected hMore hNoLetters ?_ ?_ ?_
  · rw [Custody.offsets_settle hHeld, List.append_assoc]
    exact List.Perm.append_left _ List.perm_append_comm
  · rw [List.filter_eq_self.mpr hDecodable]
    simp [storedBatches, storedBatch?, hBatch]
  · rw [List.filter_eq_nil_iff.mpr fun o ho => by simp [hDecodable o ho]]

theorem giveUp (h : Conserved q c deeds) (hHeld : c.held = batch ++ kept)
    (hFaithful : { c with held := kept }.Faithful q.book
      (deeds ++ [Deed.giveUp parcels failures answer])) (n : Nat) :
    Conserved
      { q with
        returned := q.returned ++ batch.offsets.toArray
        queued := q.queued ++ batch.map fun p => (p.handle.offset, p.handle.deliveryCount + 1)
        commits := n }
      { c with held := kept } (deeds ++ [Deed.giveUp parcels failures answer]) := by
  refine h.keep rfl hFaithful h.collected rfl rfl ?_ rfl
  rw [Custody.offsets_settle hHeld, List.map_append, List.map_map, List.append_assoc]
  exact .rfl

end Settled

/-- Every move conserves the messages if what it settles goes through. -/
theorem move {γ : Type} {guard : Guard γ} {settings : WorkerSettings} {s s' : γ × Queue}
    (h : Conserved s.2 c deeds)
    (hMove : Custody.Move (source.guarded guard) settings c s new c' s')
    (hThrough : ∀ d ∈ new, d.IsThrough) :
    Conserved s'.2 c' (deeds ++ new) := by
  have hFaithful : c'.Faithful s.2.book (deeds ++ new) :=
    h.faithful.move hMove
      (fun max wait => (guarded_fetch_handsOut guard s max wait).isFrom h.queued_published)
      (fun call _ => (take_handsOut s.2 call.max).isFrom h.queued_published)
  cases hMove with
  | rest => exact h.keep rfl hFaithful h.collected rfl rfl .rfl rfl
  | leave =>
    refine h.keep rfl hFaithful rfl rfl rfl ?_ rfl
    rw [Custody.offsets, Custody.offsets, h.collected]
    exact .rfl
  | fetch s max wait hCall hComing =>
    refine h.fetched hComing (guarded_fetch_handsOut guard s max wait) hFaithful ?_
    exact Fetch.storedBatches_deeds _
  | resume s call hCall hComing =>
    refine h.fetched hComing (take_handsOut s.2 call.max) hFaithful ?_
    exact Fetch.storedBatches_deeds _
  | accept s hComing hParcel =>
    obtain rfl := Delivery.parcel?_eq_some hParcel
    refine h.keep rfl hFaithful h.collected rfl rfl ?_ rfl
    rw [Custody.offsets_accept hComing]
  | reject s hComing hRefusal =>
    obtain rfl := Delivery.refusal?_eq_some hRefusal
    obtain hQueue | hQueue := guarded_refuse (hThrough _ (List.mem_singleton_self _))
    · rw [hQueue]
      exact h.putAside hComing hFaithful
    · rw [hQueue]
      exact h.handBack hComing hFaithful
  | commit s =>
    obtain ⟨n, hQueue⟩ := guarded_commit guard s
    rw [hQueue]
    exact h.keep rfl hFaithful h.collected rfl rfl .rfl rfl
  | store s hHeld =>
    obtain ⟨n, hQueue⟩ := guarded_commit guard (Source.each (source.guarded guard).ack _ s).2
    rw [hQueue, each_ack (hThrough _ (List.mem_singleton_self _)).answered_store]
    exact h.store hHeld (Source.batchOf_each _ _ _) hFaithful n
  | giveUp s hHeld =>
    obtain ⟨n, hQueue⟩ := guarded_commit guard (Source.each (source.guarded guard).nak _ s).2
    rw [hQueue, each_nak (hThrough _ (List.mem_singleton_self _)).answered_giveUp]
    exact h.giveUp hHeld hFaithful n

end Conserved

theorem published_nodup (q : Queue) : q.published.Nodup :=
  List.Pairwise.map _ (fun _ _ hNe hEq => hNe (Int.ofNat.inj hEq)) List.nodup_range

/-- The messages of a queue add up, while a worker has buffered some of them and has stored these
batches. -/
structure Balanced (q : Queue) (buffered : Batch) (journal : List Happening)
    (batches : List Batch) : Prop where
  ids : (q.queued.map Prod.fst ++ buffered.offsets ++ q.acked.toList).Perm q.published
  once : (q.queued.map Prod.fst ++ buffered.offsets ++ q.acked.toList).Nodup
  rows : Journal.stored journal = batches.map Batch.rows
  events : ∀ p ∈ buffered ++ batches.flatten, p.IsFrom q.book
  stored : (Batch.offsets batches.flatten).Perm (q.acked.toList.filter q.isDecodable)
  aside : q.deadLettered.toList.Perm (q.acked.toList.filter (!q.isDecodable ·))

theorem Conserved.balanced {q : Queue} {c : Custody Waiting} {deeds : List Deed}
    (h : Conserved q c deeds) (hComing : c.coming = []) {journal : List Happening}
    (hRows : Journal.stored journal = (storedBatches deeds).map Batch.rows) :
    Balanced q c.held journal (storedBatches deeds) := by
  have hOffsets : c.offsets = c.held.offsets := by
    rw [Custody.offsets, hComing, h.collected]
    simp
  have hIds := h.ids
  rw [hOffsets] at hIds
  refine ⟨hIds, hIds.nodup_iff.mpr q.published_nodup, hRows, ?_, h.stored, h.aside⟩
  intro p hp
  rcases List.mem_append.mp hp with hp | hp
  · exact h.faithful.held p hp
  · exact h.faithful.batches p (mem_allBatches_of_stored hp)

end Queue

def Worker.IsAtRest {φ ψ : Type} (w : Worker φ ψ) : Prop := w.phase = .polling ∨ w.phase = .stopped

namespace Queue

open Worker (Course)

variable {γ τ ψ : Type}

/-- The messages of the queue add up, and nothing is left in the buffer of a worker that stopped. -/
def Accounts (s : γ × Queue) (w : Worker Waiting ψ) (journal : List Happening) : Prop :=
  (∃ batches, Balanced s.2 w.buffer.batch journal batches) ∧
    (w.phase = .stopped → w.buffer.batch = [])

theorem accounts_of_course (guard : Guard γ) (settings : WorkerSettings) (store : Store τ ψ) (g : γ)
    (t : τ) (turns : List (Worker.Turn Act τ)) :
    let c := Course.run ⟨settings, source.guarded guard, store⟩ (behind act) turns
      (Course.start settings (g, {}) t)
    Journal.NoneFailed c.journal → c.scene.worker.IsAtRest →
      Accounts c.scene.source c.scene.worker c.journal := by
  intro c hNone hRest
  obtain ⟨deeds, hChronicle, hKept⟩ : ∃ deeds,
      Worker.Chronicle settings c.scene.worker c.journal deeds ∧
        ((∀ d ∈ deeds, d.IsThrough) →
          Conserved c.scene.source.2 c.scene.worker.custody deeds) := by
    refine Course.run_from_start (I := fun c (s : γ × Queue) deeds =>
      (∀ d ∈ deeds, d.IsThrough) → Conserved s.2 c deeds) ?_ ?_ (fun _ => conserved_start) turns
    · intro c s deeds new c' s' h hMove hThrough
      obtain ⟨hBefore, hNew⟩ := List.forall_mem_append.mp hThrough
      exact (h hBefore).move hMove hNew
    · exact fun a h hThrough => (h hThrough).act a
  have hConserved := hKept (hChronicle.isThrough hNone)
  have hTidy : c.scene.worker.Tidy := Course.run_tidy _ _ turns
  have hCustody : c.scene.worker.custody.coming = [] ∧
      c.scene.worker.custody.held = c.scene.worker.buffer.batch := by
    rcases hRest with hPhase | hPhase <;> simp [Worker.custody, hPhase]
  refine ⟨⟨storedBatches deeds, ?_⟩, ?_⟩
  · rw [← hCustody.2]
    exact hConserved.balanced hCustody.1 hChronicle.stored_eq
  · intro hStopped
    simpa [Worker.Tidy, hStopped] using hTidy

theorem Accounts.of_calls {s : γ × Queue} {w : Worker Waiting ψ} {journal other : List Happening}
    (h : Accounts s w journal) (hCalls : Journal.calls journal = Journal.calls other) :
    Accounts s w other := by
  obtain ⟨⟨batches, hBalanced⟩, hStopped⟩ := h
  refine ⟨⟨batches, hBalanced.ids, hBalanced.once, ?_, hBalanced.events, hBalanced.stored,
    hBalanced.aside⟩, hStopped⟩
  rw [← Journal.stored_calls, ← hCalls, Journal.stored_calls]
  exact hBalanced.rows

def crew (settings : WorkerSettings) (size : Nat) (guards : Nat → Guard γ) (store : Store τ ψ) :
    Pool.Crew (Nat → γ × Queue) (γ × Queue) τ Waiting ψ :=
  ⟨settings, size, fun i => source.guarded (guards i), Pool.ownPart, store⟩

theorem accounts_of_pool (guards : Nat → Guard γ) (settings : WorkerSettings) (size : Nat)
    (store : Store τ ψ) (gs : Nat → γ) (t : τ) (turns : List (Pool.Turn Act τ)) :
    let c := Pool.Course.run (crew settings size guards store) (behind act) turns
      (Pool.Course.start (fun i => (gs i, {})) t)
    ∀ (i : Nat) (w : Worker Waiting ψ), c.pool.workers[i]? = some w →
      Journal.NoneFailed (Pool.journalOf i c.journal) → w.IsAtRest →
      Accounts (c.pool.source i) w (Pool.journalOf i c.journal) := by
  intro c i w hWorker hNone hRest
  have hSeparate : (crew settings size guards store).Separate := Pool.ownPart_separate ..
  obtain ⟨alone, hShows⟩ :=
    Pool.tracked_run hSeparate (behind act) (fun i => (gs i, {})) t turns i
  have hStands := hShows.worker
  rw [show _ = some w from hWorker] at hStands
  obtain rfl | ⟨-, hired, rfl⟩ := hStands.of_some
  · rw [← Journal.noneFailed_calls, ← hShows.did, Journal.noneFailed_calls] at hNone
    have hAccounts := accounts_of_course (guards i) settings store (gs i) t alone hNone hRest
    have hSource : _ = c.pool.source i := hShows.source
    rw [← hSource]
    exact hAccounts.of_calls hShows.did
  · rcases hRest with hPhase | hPhase <;> cases hPhase

/-- As long as no acknowledgement and no return of a message fails, no message of a queue is lost and
none is stored or put aside twice, whether a worker is alone or one of a pool. -/
theorem messages_add_up (settings : WorkerSettings) (store : Store τ ψ) (t : τ) :
    (∀ (guard : Guard γ) (g : γ) (turns : List (Worker.Turn Act τ)),
      let c := Course.run ⟨settings, source.guarded guard, store⟩ (behind act) turns
        (Course.start settings (g, {}) t)
      Journal.NoneFailed c.journal → c.scene.worker.IsAtRest →
        Accounts c.scene.source c.scene.worker c.journal) ∧
    (∀ (guards : Nat → Guard γ) (size : Nat) (gs : Nat → γ) (turns : List (Pool.Turn Act τ)),
      let c := Pool.Course.run (crew settings size guards store) (behind act) turns
        (Pool.Course.start (fun i => (gs i, {})) t)
      ∀ (i : Nat) (w : Worker Waiting ψ), c.pool.workers[i]? = some w →
        Journal.NoneFailed (Pool.journalOf i c.journal) → w.IsAtRest →
        Accounts (c.pool.source i) w (Pool.journalOf i c.journal)) := by
  constructor
  · intro guard g turns
    exact accounts_of_course guard settings store g t turns
  · intro guards size gs turns
    exact accounts_of_pool guards settings size store gs t turns

def hasty : WorkerSettings := { maxDeliver := 1, retry := { maxRetries := 0 } }

/-- An event and bytes that hold none are published, and the worker is cancelled when it waits. -/
def twoPublished : List (Worker.Turn Act PlannedStore) :=
  [.outside (.publish [123, 125]), .outside (.publish [120])] ++ List.replicate 4 (.work 0)
    ++ [.cancel] ++ List.replicate 6 (.work 0)

def onePublishedEach : List (Pool.Turn Act PlannedStore) :=
  [.outside 0 (.publish [123, 125]), .outside 1 (.publish [120]), .move 0 .begin, .move 0 .spawn,
    .move 0 .spawn] ++ List.replicate 4 (.move 0 (.work 0)) ++ List.replicate 4 (.move 0 (.work 1))

/-- The first insert fails, so the event goes back into the queue. -/
theorem two_messages_add_up :
    let alone := Course.run ⟨hasty, source.guarded Guard.free, PlannedStore.store⟩ (behind act)
      twoPublished (Course.start hasty ((), {}) { refusals := 1 })
    let pool := Pool.Course.run (crew hasty 2 (fun _ => Guard.free) PlannedStore.store) (behind act)
      onePublishedEach (Pool.Course.start (fun _ => ((), {})) { refusals := 1 })
    (Journal.NoneFailed alone.journal ∧ alone.scene.worker.phase = .stopped ∧
      alone.scene.source.2.queued = [(0, 2)] ∧
      Accounts alone.scene.source alone.scene.worker alone.journal) ∧
    (Journal.NoneFailed (Pool.journalOf 1 pool.journal) ∧
      pool.pool.workers[1]?.map (·.phase) = some .polling ∧
      ∀ w, pool.pool.workers[1]? = some w →
        Accounts (pool.pool.source 1) w (Pool.journalOf 1 pool.journal)) := by
  intro alone pool
  have hAlone : Journal.NoneFailed alone.journal := by decide +kernel
  have hPool : Journal.NoneFailed (Pool.journalOf 1 pool.journal) := by decide +kernel
  have hPolling : pool.pool.workers[1]?.map (·.phase) = some .polling := by rfl
  constructor
  · refine ⟨hAlone, by rfl, by rfl, ?_⟩
    exact (messages_add_up hasty PlannedStore.store { refusals := 1 }).1 Guard.free () twoPublished
      hAlone (.inr (by rfl))
  · refine ⟨hPool, hPolling, ?_⟩
    intro w hw
    rw [hw] at hPolling
    exact (messages_add_up hasty PlannedStore.store { refusals := 1 }).2 (fun _ => Guard.free) 2
      (fun _ => ()) onePublishedEach 1 w hw hPool (.inl (Option.some.inj hPolling))

end Queue

end EventIngest
