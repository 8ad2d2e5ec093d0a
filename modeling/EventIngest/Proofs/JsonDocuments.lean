import EventIngest.Proofs.JsonSkipped
/-!
# Records read from documents

What a record is read as follows from the members of the object or the elements of the list that its
text is. Every text that is read as a record is one of the two.
-/
namespace EventIngest.Json

open Number (Ends)

section Values

variable {rest : List UInt8}

theorem read_text_tree (t : Tree) (w : Blanks) :
    (Kind.text.read (w.bytes ++ (t.text ++ rest))).toOption
      = (Kind.text.value? t).map (·, rest) := by
  obtain ⟨b, more, hText, hHead⟩ := t.text_eq_cons
  by_cases hLiteral : ∃ ps, t = .literal ps
  · obtain ⟨ps, rfl⟩ := hLiteral
    rw [Kind.read, skipBlanks_append, Tree.text, List.cons_append, skipBlanks_cons (by decide)]
    simp only [if_true, toOption_bind, Literal.read_text, Kind.value?]
    cases Literal.content? ps with
    | none => rfl
    | some s => rfl
  · have hValue : Kind.text.value? t = none := by
      cases t with
      | literal ps => exact absurd ⟨ps, rfl⟩ hLiteral
      | _ => rfl
    have hQuote := hHead.ne_quote fun ps h => hLiteral ⟨ps, h⟩
    rw [Kind.read, skipBlanks_append, hText, List.cons_append,
      skipBlanks_cons hHead.opens.notBlank, hValue]
    simp only [if_neg hQuote]
    rfl

theorem read_whole_tree (width : Decimal.Width) (t : Tree) (w : Blanks)
    (hRest : t.IsScalar → Ends rest) :
    ((Kind.whole width).read (w.bytes ++ (t.text ++ rest))).toOption
      = ((Kind.whole width).value? t).map (·, rest) := by
  obtain ⟨b, more, hText, hHead⟩ := t.text_eq_cons
  by_cases hNumber : ∃ n, t = .number n
  · obtain ⟨n, rfl⟩ := hNumber
    obtain ⟨b', more', hNumeral, hBegins⟩ := n.text_eq_cons
    have hRead := n.read_whole_iff (hRest trivial)
    have hNone (h : ∀ m after, Number.read (n.text ++ rest) ≠ .ok (.whole m, after)) :
        n.whole? = none :=
      Option.eq_none_iff_forall_not_mem.mpr fun m hm => h m rest ((hRead m rest).mpr ⟨hm, rfl⟩)
    rw [Tree.text] at hText ⊢
    rw [Kind.read, skipBlanks_append]
    rw [hNumeral, List.cons_append] at *
    rw [skipBlanks_cons (opens_number hBegins).notBlank, Kind.value?]
    simp only [if_pos hBegins, bind, Except.bind]
    cases hNumber : Number.read (b' :: (more' ++ rest)) with
    | error fault =>
      rw [hNone (by simp [hNumber])]
      rfl
    | ok taken =>
      obtain ⟨number, after⟩ := taken
      cases number with
      | real x =>
        rw [hNone (by simp [hNumber])]
        rfl
      | whole m =>
        obtain ⟨hWhole, rfl⟩ := (hRead m after).mp hNumber
        rw [hWhole, Option.filter_some]
        by_cases hHolds : width.holds m = true
        · simp only [if_pos hHolds]
          rfl
        · simp only [if_neg hHolds]
          rfl
  · have hValue : (Kind.whole width).value? t = none := by
      cases t with
      | number n => exact absurd ⟨n, rfl⟩ hNumber
      | _ => rfl
    have hBegins := hHead.not_begins fun n h => hNumber ⟨n, h⟩
    rw [Kind.read, skipBlanks_append, hText, List.cons_append,
      skipBlanks_cons hHead.opens.notBlank, hValue]
    simp only [if_neg hBegins]
    rfl

theorem Kind.read_tree (kind : Kind) (t : Tree) (w : Blanks) (hRest : t.IsScalar → Ends rest) :
    (kind.read (w.bytes ++ (t.text ++ rest))).toOption = (kind.value? t).map (·, rest) := by
  cases kind with
  | text => exact read_text_tree t w
  | whole width => exact read_whole_tree width t w hRest

theorem Kind.eq_text_of_read {kind : Kind} {text : List UInt8} {value : Scalar}
    (h : kind.read text = .ok (value, rest)) :
    ∃ (w : Blanks) (t : Tree), text = w.bytes ++ (t.text ++ rest) := by
  rw [Kind.read.eq_def] at h
  split at h
  · cases h
  rename_i b opened hOpened
  obtain ⟨w, rfl⟩ := exists_blanks_cons hOpened
  cases kind with
  | text =>
    dsimp only at h
    split at h
    · subst b
      obtain ⟨⟨s, after⟩, hRead, h⟩ := bind_eq_ok.mp h
      cases h
      obtain ⟨ps, rfl, -⟩ := Literal.eq_text_of_read hRead
      exact ⟨w, .literal ps, by rw [Tree.text]; rfl⟩
    · cases h
  | whole width =>
    dsimp only at h
    split at h
    · obtain ⟨⟨number, after⟩, hRead, h⟩ := bind_eq_ok.mp h
      have hAfter : after = rest := by
        dsimp only at h
        split at h
        · split at h
          · cases h
            rfl
          · cases h
        · cases h
      subst hAfter
      obtain ⟨n, hText⟩ := Number.eq_text_of_skip (Number.skip_of_read hRead)
      exact ⟨w, .number n, by rw [hText, Tree.text]⟩
    · cases h

end Values

section Members

variable {shape : Shape} {rest : List UInt8}

/-- What a member with this key adds to a record: nothing, unless the key is the name of a field. -/
def Shape.addedUnder? (shape : Shape) (key : String) (value : Tree) :
    Option (Option (String × Scalar)) :=
  match shape.kind? key with
  | some kind => (kind.value? value).map fun v => some (key, v)
  | none => some none

def Shape.added? (shape : Shape) (m : Member) : Option (Option (String × Scalar)) :=
  (Literal.content? m.key).bind fun key => shape.addedUnder? key m.value

def Members.add? (done : Members) : Option (String × Scalar) → Option Members
  | some entry => if (done.lookup entry.1).isSome then none else some (done ++ [entry])
  | none => some done

def Shape.take? (shape : Shape) (done : Members) (m : Member) : Option Members :=
  (shape.added? m).bind done.add?

theorem readColon_blanks (w : Blanks) (text : List UInt8) :
    readColon (w.bytes ++ colon :: text) = .ok text := by
  rw [readColon, skipBlanks_append, skipBlanks_cons (by decide)]
  rfl

theorem openKey_member (first : Bool) (w before : Blanks) (text : List UInt8) :
    ∃ b more,
      skipBlanks (w.bytes ++ ((if first then [] else [comma])
        ++ (before.bytes ++ Literal.quote :: text))) = b :: more ∧
      b ≠ closeObject ∧ openKey first (b :: more) = .ok text := by
  cases first with
  | true =>
    refine ⟨Literal.quote, text, ?_, by decide, rfl⟩
    rw [skipBlanks_append, if_pos rfl, List.nil_append, skipBlanks_append,
      skipBlanks_cons (by decide)]
  | false =>
    refine ⟨comma, before.bytes ++ Literal.quote :: text, ?_, by decide, ?_⟩
    · rw [skipBlanks_append]
      exact skipBlanks_cons (by decide) _
    · simp only [openKey, Bool.false_eq_true, if_false, if_true, skipBlanks_append,
        skipBlanks_cons (show isBlank Literal.quote = false by decide)]

namespace Shape

theorem readMember_text {bound : Nat} {done : Members} {key : String} {between after : Blanks}
    {value : Tree} (hBound : value.text.length < bound) (hRest : value.IsScalar → Ends rest) :
    (shape.readMember bound done key
      (between.bytes ++ colon :: (after.bytes ++ (value.text ++ rest)))).toOption
      = ((shape.addedUnder? key value).bind done.add?).map (·, rest) := by
  rw [readMember, addedUnder?]
  cases shape.kind? key with
  | some kind =>
    dsimp only
    split
    · rename_i hDuplicate
      cases kind.value? value with
      | none => rfl
      | some v => simp [Members.add?, hDuplicate, Except.toOption]
    · rename_i hNew
      rw [readColon_blanks, toOption_bind, toOption_ok, Option.bind_some, toOption_bind,
        kind.read_tree value after hRest]
      cases kind.value? value with
      | none => rfl
      | some v => simp [Members.add?, hNew, Except.toOption, pure, Except.pure]
  | none =>
    simp only [readColon_blanks, bind, Except.bind, skipValue_tree hBound after hRest]
    rfl

theorem readMembers_member {fuel : Nat} {first : Bool} {done : Members} {w after : Blanks}
    {lead : Lead .object} {value : Tree} {more : Items .object}
    (hFuel : (w.bytes ++ ((Items.cons lead value after more).text first ++ rest)).length
      < fuel + 1) :
    (shape.readMembers (fuel + 1) first done
      (w.bytes ++ ((Items.cons lead value after more).text first ++ rest))).toOption
      = (shape.take? done ⟨lead, value, after⟩).bind fun done =>
        (shape.readMembers fuel false done
          (after.bytes ++ (more.text false ++ rest))).toOption := by
  cases lead with
  | member before key between before' =>
    obtain ⟨b, opened, hHead, hOpen, hKey⟩ := openKey_member first w before (Literal.text key
      ++ (between.bytes ++ colon :: (before'.bytes ++ (value.text
        ++ (after.bytes ++ (more.text false ++ rest))))))
    have hText : w.bytes ++ ((Items.cons (.member before key between before') value after
          more).text first ++ rest)
        = w.bytes ++ ((if first then [] else [comma]) ++ (before.bytes ++ Literal.quote ::
          (Literal.text key ++ (between.bytes ++ colon :: (before'.bytes ++ (value.text
            ++ (after.bytes ++ (more.text false ++ rest)))))))) := by
      simp [Items.text, Lead.text]
    rw [hText] at hFuel ⊢
    simp only [List.length_append, List.length_cons] at hFuel
    have hMember (key : String) := @readMember_text shape
      (after.bytes ++ (more.text false ++ rest)) fuel done key between before' value (by omega)
      fun _ => ends_items more after rest
    rw [readMembers, hHead]
    simp only [if_neg hOpen, toOption_bind, hKey, toOption_ok, Option.bind_some, Literal.read_text,
      take?, added?, Item.key]
    cases Literal.content? key with
    | none => rfl
    | some key =>
      simp only [Option.map_some, Option.bind_some, hMember]
      cases (shape.addedUnder? key value).bind done.add? with
      | none => rfl
      | some done => rfl

theorem readMembers_text {inner : Blanks} {items : List Member} {fuel : Nat} {first : Bool}
    {done : Members} {w : Blanks} (rest : List UInt8)
    (hFuel : (w.bytes ++ ((Items.ofList inner items).text first ++ rest)).length < fuel) :
    (shape.readMembers fuel first done
      (w.bytes ++ ((Items.ofList inner items).text first ++ rest))).toOption
      = (items.foldlM shape.take? done).map (·, rest) := by
  induction items generalizing fuel first done w with
  | nil =>
    obtain _ | fuel := fuel
    · cases hFuel
    rw [Items.ofList, Items.text, List.append_assoc, readMembers, skipBlanks_append,
      skipBlanks_append]
    rfl
  | cons item items ih =>
    obtain _ | fuel := fuel
    · cases hFuel
    rw [Items.ofList] at hFuel ⊢
    rw [readMembers_member hFuel, List.foldlM_cons]
    cases hTake : shape.take? done item with
    | none => rfl
    | some done =>
      have hValue := item.value.places_lt
      apply ih
      simp only [Items.text, List.length_append] at hFuel ⊢
      omega

theorem eq_text_of_openKey {first : Bool} {text opened : List UInt8}
    (h : openKey first text = .ok opened) :
    ∃ before : Blanks,
      text = (if first then [] else [comma]) ++ (before.bytes ++ Literal.quote :: opened) := by
  rw [openKey.eq_def] at h
  split at h
  · cases h
  cases first with
  | true =>
    rw [if_pos rfl] at h
    split at h
    · cases h
      subst_vars
      exact ⟨.none, rfl⟩
    · cases h
  | false =>
    rw [if_neg Bool.false_ne_true] at h
    split at h
    · split at h
      · cases h
      rename_i c after hAfter
      obtain ⟨before, rfl⟩ := exists_blanks_cons hAfter
      split at h
      · cases h
        subst_vars
        exact ⟨before, rfl⟩
      · split at h
        · cases h
        · cases h
    · cases h

theorem eq_text_of_readMember {bound : Nat} {done result : Members} {key : String}
    {text : List UInt8} (h : shape.readMember bound done key text = .ok (result, rest)) :
    ∃ (between after : Blanks) (value : Tree),
      text = between.bytes ++ colon :: (after.bytes ++ (value.text ++ rest)) := by
  rw [readMember] at h
  split at h
  · split at h
    · cases h
    · obtain ⟨afterColon, hColon, h⟩ := bind_eq_ok.mp h
      obtain ⟨⟨v, last⟩, hValue, h⟩ := bind_eq_ok.mp h
      cases h
      obtain ⟨between, rfl⟩ := eq_colon_of_read hColon
      obtain ⟨after, value, rfl⟩ := Kind.eq_text_of_read hValue
      exact ⟨between, after, value, rfl⟩
  · obtain ⟨afterColon, hColon, h⟩ := bind_eq_ok.mp h
    obtain ⟨last, hValue, h⟩ := bind_eq_ok.mp h
    cases h
    obtain ⟨between, rfl⟩ := eq_colon_of_read hColon
    obtain ⟨after, value, rfl⟩ := eq_text_of_skipValue hValue
    exact ⟨between, after, value, rfl⟩

theorem eq_text_of_readMembers {fuel : Nat} {first : Bool} {done result : Members}
    {text : List UInt8} (h : shape.readMembers fuel first done text = .ok (result, rest)) :
    ∃ (w inner : Blanks) (items : List Member),
      text = w.bytes ++ ((Items.ofList inner items).text first ++ rest) := by
  induction fuel generalizing first done text with
  | zero => cases h
  | succ fuel ih =>
    rw [readMembers] at h
    split at h
    · cases h
    rename_i b opened hOpened
    obtain ⟨w, rfl⟩ := exists_blanks_cons hOpened
    split at h
    · subst b
      cases h
      exact ⟨w, .none, [], by rw [Items.ofList, Items.text]; rfl⟩
    · obtain ⟨afterQuote, hQuote, hRead⟩ := bind_eq_ok.mp h
      obtain ⟨⟨key, afterKey⟩, hKey, hRead⟩ := bind_eq_ok.mp hRead
      obtain ⟨⟨grown, afterMember⟩, hMember, hOthers⟩ := bind_eq_ok.mp hRead
      obtain ⟨after, inner, items, rfl⟩ := ih hOthers
      obtain ⟨before, hText⟩ := eq_text_of_openKey hQuote
      obtain ⟨ps, rfl, -⟩ := Literal.eq_text_of_read hKey
      obtain ⟨between, before', value, rfl⟩ := eq_text_of_readMember hMember
      refine ⟨w, inner, ⟨.member before ps between before', value, after⟩ :: items, ?_⟩
      rw [hText]
      simp [Items.ofList, Items.text, Lead.text]

end Shape

end Members

section Elements

variable {shape : Shape} {rest : List UInt8}

/-- The values of the elements under the names of the fields, in order. -/
def Shape.fill? (shape : Shape) :
    Members → List (String × Kind) → List (Item .list) → Option Members
  | done, [], [] => some done
  | _, [], _ :: _ => none
  | done, _ :: _, [] => if shape.required then none else some done
  | done, (name, kind) :: fields, item :: items =>
    (kind.value? item.value).bind fun value => shape.fill? (done ++ [(name, value)]) fields items

namespace Shape

theorem nextElement_cons (first : Bool) (w : Blanks) {lead : Lead .list} {value : Tree}
    {after : Blanks} {more : Items .list} :
    nextElement first (w.bytes ++ ((Items.cons lead value after more).text first ++ rest))
      = .ok (.inl (value.text ++ (after.bytes ++ (more.text false ++ rest)))) := by
  obtain ⟨b, opened, hText, hBegins⟩ := value.text_eq_cons
  have hBlank := hBegins.opens.notBlank
  have hClose : b ≠ closeList := hBegins.opens.notClose .list
  cases lead with
  | element before =>
    rw [Items.text, hText, nextElement, skipBlanks_append]
    cases first with
    | true =>
      simp only [if_true, List.nil_append, List.append_assoc, Lead.text, List.cons_append]
      rw [skipBlanks_append, skipBlanks_cons hBlank]
      simp only [if_neg hClose]
    | false =>
      simp only [Bool.false_eq_true, if_false, List.cons_append, List.nil_append,
        List.append_assoc, Lead.text]
      rw [skipBlanks_cons (by decide)]
      simp only [show comma ≠ closeList by decide, if_false, if_true, skipBlanks_append,
        skipBlanks_cons hBlank, if_neg hClose]

theorem nextElement_nil (first : Bool) (w inner : Blanks) :
    nextElement first (w.bytes ++ ((Items.nil inner : Items .list).text first ++ rest))
      = .ok (.inr rest) := by
  rw [Items.text, List.append_assoc, nextElement, skipBlanks_append, skipBlanks_append]
  rfl

theorem eq_close_of_endList {text : List UInt8} (h : endList text = .ok rest) :
    ∃ w : Blanks, text = w.bytes ++ closeList :: rest := by
  rw [endList] at h
  split at h
  · cases h
  rename_i b opened hOpened
  obtain ⟨w, rfl⟩ := exists_blanks_cons hOpened
  split at h
  · subst b
    cases h
    exact ⟨w, rfl⟩
  · split at h
    · split at h
      · cases h
      · split at h <;> cases h
    · cases h

theorem endList_nil (first : Bool) (w inner : Blanks) :
    endList (w.bytes ++ ((Items.nil inner : Items .list).text first ++ rest)) = .ok rest := by
  rw [Items.text, List.append_assoc, endList, skipBlanks_append, skipBlanks_append]
  rfl

theorem endList_cons (first : Bool) (w : Blanks) {lead : Lead .list} {value : Tree}
    {after : Blanks} {more : Items .list} :
    (endList (w.bytes ++ ((Items.cons lead value after more).text first ++ rest))).toOption
      = none := by
  rw [Option.eq_none_iff_forall_ne_some]
  intro r h
  obtain ⟨w', hText⟩ := eq_close_of_endList (toOption_eq_some.mp h)
  have hNext := @nextElement_cons rest first w lead value after more
  rw [hText, nextElement, skipBlanks_append, skipBlanks_cons (by decide)] at hNext
  cases hNext

theorem isEmpty_concat (done : Members) (entry : String × Scalar) :
    (done ++ [entry]).isEmpty = false := by simp

theorem readElements_text {inner : Blanks} {items : List (Item .list)} {done : Members}
    {fields : List (String × Kind)} {w : Blanks} (rest : List UInt8) :
    (shape.readElements done fields
      (w.bytes ++ ((Items.ofList inner items).text done.isEmpty ++ rest))).toOption
      = (shape.fill? done fields items).map (·, rest) := by
  induction fields generalizing items done w with
  | nil =>
    cases items with
    | nil =>
      rw [Items.ofList, readElements, endList_nil]
      rfl
    | cons item items =>
      rw [Items.ofList, readElements, toOption_bind, endList_cons]
      rfl
  | cons field fields ih =>
    obtain ⟨name, kind⟩ := field
    cases items with
    | nil =>
      rw [Items.ofList, readElements, nextElement_nil]
      simp only [bind, Except.bind, fill?]
      split
      · rfl
      · rfl
    | cons item items =>
      rw [Items.ofList, readElements, nextElement_cons]
      have hRead := @Kind.read_tree
        (item.after.bytes ++ ((Items.ofList inner items).text false ++ rest)) kind item.value .none
        fun _ => ends_items _ item.after rest
      rw [Blanks.none, List.nil_append] at hRead
      rw [toOption_bind, toOption_ok, Option.bind_some, toOption_bind, hRead, fill?]
      cases kind.value? item.value with
      | none => rfl
      | some value =>
        have hMore := @ih items (done ++ [(name, value)]) item.after
        rw [isEmpty_concat] at hMore
        exact hMore

theorem eq_text_of_nextElement {first : Bool} {text : List UInt8}
    {next : List UInt8 ⊕ List UInt8} (h : nextElement first text = .ok next) :
    (∃ (opened : List UInt8) (w before : Blanks), next = .inl opened ∧
      text = w.bytes ++ ((if first then [] else [comma]) ++ (before.bytes ++ opened))) ∨
    ∃ (closed : List UInt8) (w : Blanks), next = .inr closed ∧
      text = w.bytes ++ closeList :: closed := by
  rw [nextElement] at h
  split at h
  · cases h
  rename_i b opened hOpened
  obtain ⟨w, rfl⟩ := exists_blanks_cons hOpened
  split at h
  · subst b
    cases h
    exact Or.inr ⟨opened, w, rfl, rfl⟩
  split at h
  · cases h
    subst first
    exact Or.inl ⟨_, w, .none, rfl, rfl⟩
  rename_i hFirst
  split at h
  · split at h
    · cases h
    rename_i c after hAfter
    obtain ⟨before, rfl⟩ := exists_blanks_cons hAfter
    split at h
    · cases h
    · cases h
      subst b
      exact Or.inl ⟨_, w, before, rfl, by rw [if_neg hFirst]; rfl⟩
  · cases h

theorem eq_text_of_readElements {done result : Members} {fields : List (String × Kind)}
    {text : List UInt8} (h : shape.readElements done fields text = .ok (result, rest)) :
    ∃ (w inner : Blanks) (items : List (Item .list)),
      text = w.bytes ++ ((Items.ofList inner items).text done.isEmpty ++ rest) := by
  have hClosed {w : Blanks} (first : Bool) : w.bytes ++ closeList :: rest
      = w.bytes ++ ((Items.ofList .none ([] : List (Item .list))).text first ++ rest) := by
    rw [Items.ofList, Items.text]
    rfl
  induction fields generalizing done text with
  | nil =>
    obtain ⟨after, hEnd, h⟩ := bind_eq_ok.mp h
    cases h
    obtain ⟨w, rfl⟩ := eq_close_of_endList hEnd
    exact ⟨w, .none, [], hClosed _⟩
  | cons field fields ih =>
    obtain ⟨name, kind⟩ := field
    obtain ⟨next, hNext, hRead⟩ := bind_eq_ok.mp h
    obtain ⟨opened, w, before, rfl, hText⟩ | ⟨closed, w, rfl, hText⟩ :=
      eq_text_of_nextElement hNext
    · obtain ⟨⟨value, after⟩, hValue, hOthers⟩ := bind_eq_ok.mp hRead
      obtain ⟨before', t, rfl⟩ := Kind.eq_text_of_read hValue
      obtain ⟨after, inner, items, rfl⟩ := ih hOthers
      refine ⟨w, inner, ⟨.element (before.append before'), t, after⟩ :: items, ?_⟩
      rw [hText]
      simp [Items.ofList, Items.text, Lead.text, Blanks.append, isEmpty_concat]
    · dsimp only at hRead
      split at hRead
      · cases hRead
      · cases hRead
        exact ⟨w, .none, [], hText.trans (hClosed _)⟩

end Shape

end Elements

section Documents

variable {shape : Shape}

namespace Document

theorem text_eq {frame : Frame} (d : Document frame) :
    d.text = d.before.bytes
      ++ frame.opening :: ((Items.ofList d.inner d.items).text true ++ d.after.bytes) := by
  rw [text, tree, Tree.text, List.cons_append]

theorem exists_widened {frame : Frame} (w inner : Blanks) (items : List (Item frame)) :
    ∃ (inner' : Blanks) (items' : List (Item frame)),
      w.bytes ++ (Items.ofList inner items).text true = (Items.ofList inner' items').text true := by
  cases items with
  | nil => exact ⟨w.append inner, [], by simp [Items.ofList, Items.text, Blanks.append]⟩
  | cons item items =>
    obtain ⟨lead, hLead⟩ := item.lead.exists_widened w
    exact ⟨inner, { item with lead := lead } :: items, by simp [Items.ofList, Items.text, hLead]⟩

theorem exists_text_eq {frame : Frame} (before w inner after : Blanks) (items : List (Item frame)) :
    ∃ d : Document frame, before.bytes ++ frame.opening
      :: (w.bytes ++ ((Items.ofList inner items).text true ++ after.bytes)) = d.text := by
  obtain ⟨inner', items', hItems⟩ := exists_widened w inner items
  refine ⟨⟨before, items', inner', after⟩, ?_⟩
  rw [text_eq, ← hItems, List.append_assoc]

end Document

namespace Shape

def object? (shape : Shape) (items : List Member) : Option Members :=
  (items.foldlM shape.take? []).filter fun members => (shape.missing members).isEmpty

def list? (shape : Shape) (items : List (Item .list)) : Option Members :=
  shape.fill? [] shape.fields items

theorem read_record {record : Option Members} {text : List UInt8} {after : Blanks}
    (h : (shape.readRecord text).toOption = record.map (·, after.bytes)) :
    (shape.read text).toOption = record := by
  rw [read, toOption_bind, h]
  cases record with
  | none => rfl
  | some members =>
    simp only [Option.map_some, Option.bind_some, skipBlanks_blanks]
    rfl

theorem read_object (shape : Shape) (d : Document .object) :
    (shape.read d.text).toOption = shape.object? d.items := by
  have hMembers := @readMembers_text shape d.inner d.items
    (((Items.ofList d.inner d.items).text true ++ d.after.bytes).length + 1) true [] .none
    d.after.bytes (Nat.lt_succ_self _)
  rw [Blanks.none, List.nil_append] at hMembers
  refine @read_record shape _ _ d.after ?_
  rw [d.text_eq, readRecord, skipBlanks_append, skipBlanks_cons (opens_opening .object).notBlank]
  simp only [Frame.opening, if_true, readObject, toOption_bind, hMembers, object?]
  cases d.items.foldlM shape.take? [] with
  | none => rfl
  | some members =>
    simp only [Option.map_some, Option.bind_some, Option.filter_some]
    cases shape.missing members with
    | nil => rfl
    | cons name names => rfl

theorem read_list (shape : Shape) (d : Document .list) :
    (shape.read d.text).toOption = shape.list? d.items := by
  have hElements := @readElements_text shape d.inner d.items [] shape.fields .none d.after.bytes
  rw [Blanks.none, List.nil_append] at hElements
  refine @read_record shape _ _ d.after ?_
  rw [d.text_eq, readRecord, skipBlanks_append, skipBlanks_cons (opens_opening .list).notBlank]
  exact hElements

theorem eq_text_of_read {text : List UInt8} {members : Members}
    (h : shape.read text = .ok members) :
    (∃ d : Document .object, text = d.text) ∨ ∃ d : Document .list, text = d.text := by
  obtain ⟨⟨result, rest⟩, hRecord, h⟩ := bind_eq_ok.mp h
  obtain ⟨after, rfl⟩ : ∃ after : Blanks, rest = after.bytes := by
    dsimp only at h
    split at h
    · rename_i hRest
      obtain ⟨after, hText⟩ := exists_blanks rest
      rw [hRest, List.append_nil] at hText
      exact ⟨after, hText⟩
    · cases h
  rw [readRecord] at hRecord
  split at hRecord
  · cases hRecord
  rename_i b opened hOpened
  obtain ⟨before, rfl⟩ := exists_blanks_cons hOpened
  split at hRecord
  · subst b
    obtain ⟨⟨read, last⟩, hMembers, hRecord⟩ := bind_eq_ok.mp hRecord
    have hLast : last = after.bytes := by
      dsimp only at hRecord
      split at hRecord
      · cases hRecord
        rfl
      · cases hRecord
    obtain ⟨w, inner, items, rfl⟩ := eq_text_of_readMembers hMembers
    rw [hLast]
    exact Or.inl (Document.exists_text_eq before w inner after items)
  split at hRecord
  · subst b
    obtain ⟨w, inner, items, rfl⟩ := eq_text_of_readElements hRecord
    exact Or.inr (Document.exists_text_eq before w inner after items)
  · cases hRecord

end Shape

end Documents

end EventIngest.Json
