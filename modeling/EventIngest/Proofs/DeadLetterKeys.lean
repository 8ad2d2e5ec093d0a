import EventIngest.DeadLetter
/-!
# Keys of dead letters

A key joins the topic, the partition and the offset of a message with dashes, which a topic may hold
as well. Read from its end it falls apart in one way only, as the digits of a number hold no dash.
-/
namespace EventIngest

namespace DeadLetter

def digits (n : Int) : List Char := Nat.toDigits 10 n.natAbs

theorem dash_notMem_digits (n : Int) : '-' ∉ digits n := by
  intro h
  have hDigit := Nat.isDigit_of_mem_toDigits (by decide) (by decide) h
  revert hDigit
  decide

theorem natAbs_eq_of_digits {m n : Int} (h : digits m = digits n) : m.natAbs = n.natAbs := by
  have hValue := congrArg (fun cs => Nat.ofDigitChars 10 cs 0) h
  simpa only [digits, Nat.ofDigitChars_ten_toDigits] using hValue

theorem toList_of_nonneg {n : Int} (h : 0 ≤ n) : (toString n).toList = digits n := by
  rw [Int.toString_eq_repr, Int.repr_eq_if, if_pos h, Nat.toList_repr, digits]
  congr 1
  omega

theorem toList_of_neg {n : Int} (h : n < 0) : (toString n).toList = '-' :: digits n := by
  rw [Int.toString_eq_repr, Int.repr_eq_if, if_neg (by omega), String.toList_append, Nat.toList_repr,
    digits]
  have hAbs : (-n).toNat = n.natAbs := by omega
  rw [hAbs]
  rfl

/-- A text falls apart in one way only at its last dash. -/
theorem last_dash_inj {as bs cs ds : List Char} (hb : '-' ∉ bs) (hd : '-' ∉ ds)
    (h : as ++ '-' :: bs = cs ++ '-' :: ds) : as = cs ∧ bs = ds := by
  obtain ⟨mid, rfl, hTail⟩ | ⟨mid, rfl, hTail⟩ := List.append_eq_append_iff.mp h
  · cases mid with
    | nil => exact ⟨(List.append_nil as).symm, List.tail_eq_of_cons_eq hTail⟩
    | cons c mid =>
      have hMem : '-' ∈ bs := by
        rw [List.tail_eq_of_cons_eq hTail]
        exact List.mem_append_right mid List.mem_cons_self
      exact absurd hMem hb
  · cases mid with
    | nil => exact ⟨List.append_nil cs, (List.tail_eq_of_cons_eq hTail).symm⟩
    | cons c mid =>
      have hMem : '-' ∈ ds := by
        rw [List.tail_eq_of_cons_eq hTail]
        exact List.mem_append_right mid List.mem_cons_self
      exact absurd hMem hd

/-- What a key holds before the dash in front of its offset. -/
def stem (d : DeadLetter) : List Char := d.topic.toList ++ '-' :: digits d.partition

theorem toList_key {d : DeadLetter} (h : 0 ≤ d.partition) :
    d.key.toList = d.stem ++ '-' :: (toString d.offset).toList := by
  simp only [key, stem, String.toList_append, toList_of_nonneg h, List.append_assoc]
  rfl

/-- A stem ends in a digit, so a dash after it belongs to what follows. -/
theorem stem_ne_concat (d : DeadLetter) (as : List Char) : d.stem ≠ as ++ ['-'] := by
  intro h
  have hDigits : digits d.partition ≠ [] := Nat.toDigits_ne_nil
  have hLast := congrArg List.getLast? h
  rw [stem, List.getLast?_append, List.getLast?_cons_of_ne_nil hDigits, List.getLast?_concat,
    Option.or_eq_some_iff] at hLast
  obtain hLast | ⟨hNone, -⟩ := hLast
  · exact dash_notMem_digits d.partition (List.mem_of_getLast? hLast)
  · exact hDigits (List.getLast?_eq_none_iff.mp hNone)

theorem stem_inj {d e : DeadLetter} (hd : 0 ≤ d.partition) (he : 0 ≤ e.partition)
    (h : d.stem = e.stem) : d.topic = e.topic ∧ d.partition = e.partition := by
  obtain ⟨hTopic, hDigits⟩ :=
    last_dash_inj (dash_notMem_digits d.partition) (dash_notMem_digits e.partition) h
  have hAbs := natAbs_eq_of_digits hDigits
  exact ⟨String.toList_injective hTopic, by omega⟩

/-- The offset of a key can be told from its end, with its sign. -/
theorem offset_inj {d e : DeadLetter}
    (h : d.stem ++ '-' :: (toString d.offset).toList = e.stem ++ '-' :: (toString e.offset).toList) :
    d.stem = e.stem ∧ d.offset = e.offset := by
  have hSplit (as bs : List Char) (hEq : as ++ '-' :: digits d.offset = bs ++ '-' :: digits e.offset) :
      as = bs ∧ d.offset.natAbs = e.offset.natAbs := by
    obtain ⟨hStem, hDigits⟩ :=
      last_dash_inj (dash_notMem_digits d.offset) (dash_notMem_digits e.offset) hEq
    exact ⟨hStem, natAbs_eq_of_digits hDigits⟩
  by_cases hd : d.offset < 0 <;> by_cases he : e.offset < 0
  · rw [toList_of_neg hd, toList_of_neg he, List.append_cons, List.append_cons _ '-' ('-' :: _)] at h
    obtain ⟨hStem, hAbs⟩ := hSplit _ _ h
    exact ⟨(List.append_singleton_inj.mp hStem).1, by omega⟩
  · rw [toList_of_neg hd, toList_of_nonneg (by omega), List.append_cons] at h
    exact absurd (hSplit _ _ h).1.symm (stem_ne_concat e _)
  · rw [toList_of_nonneg (by omega), toList_of_neg he, List.append_cons _ '-' ('-' :: _)] at h
    exact absurd (hSplit _ _ h).1 (stem_ne_concat d _)
  · rw [toList_of_nonneg (by omega), toList_of_nonneg (by omega)] at h
    obtain ⟨hStem, hAbs⟩ := hSplit _ _ h
    exact ⟨hStem, by omega⟩

/-- Two dead letters of partitions that are not negative have the same key exactly if topic,
partition and offset are the same, whatever the topics. -/
theorem keys_identify_messages {d e : DeadLetter} (hd : 0 ≤ d.partition) (he : 0 ≤ e.partition) :
    d.key = e.key ↔
      d.topic = e.topic ∧ d.partition = e.partition ∧ d.offset = e.offset := by
  constructor
  · intro h
    have hList := congrArg String.toList h
    rw [toList_key hd, toList_key he] at hList
    obtain ⟨hStem, hOffset⟩ := offset_inj hList
    obtain ⟨hTopic, hPartition⟩ := stem_inj hd he hStem
    exact ⟨hTopic, hPartition, hOffset⟩
  · rintro ⟨hTopic, hPartition, hOffset⟩
    rw [key, key, hTopic, hPartition, hOffset]

/-- Topics that end in a dash and a number are told apart from longer partitions. -/
theorem dashed_topics_told_apart :
    let d := ofMessage "" "a-1" ⟨2, 34, 1⟩ [] ""
    let e := ofMessage "" "a" ⟨12, 34, 1⟩ [] ""
    (0 ≤ d.partition ∧ 0 ≤ e.partition) ∧ d.key ≠ e.key := by
  intro d e
  have hd : 0 ≤ d.partition := by decide
  have he : 0 ≤ e.partition := by decide
  refine ⟨⟨hd, he⟩, fun h => ?_⟩
  have hTopic := ((keys_identify_messages hd he).mp h).1
  revert hTopic
  decide

/-- A negative partition can be taken for a dash at the end of a topic. -/
example : (ofMessage "" "a" ⟨-1, 0, 1⟩ [] "").key = (ofMessage "" "a-" ⟨1, 0, 1⟩ [] "").key := by
  decide

end DeadLetter

end EventIngest
