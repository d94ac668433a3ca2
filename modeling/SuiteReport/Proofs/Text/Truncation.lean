import SuiteReport.Proofs.Text.Decoding
import SuiteReport.Text.Truncation
/-!
# Cutting a text again

A text that is cut is one character longer than the limit, since the ellipsis is added to the characters that are
left. A second cut at the same limit therefore meets a text that is too long again, and takes off just the ellipsis
to put a new one in its place. Cutting at one limit and then at another is cutting at the smaller of both, so the
order does not matter and nothing is gained by cutting twice.

## Main results

* `truncateChars_congr`: of a text that is too long only the characters within the limit matter.
* `truncateChars_truncateChars`: cutting twice is cutting at the smaller limit.
* `truncateChars_eq_self_iff`: which texts a limit leaves as they are.
* `truncate_truncate`: the laws of cutting, with where a text is cut in its bytes.
-/

namespace SuiteReport

variable {s t : List Char} {m n : Nat}

/-! ### The two cases -/

/-- A text within the limit stays as it is. -/
theorem truncateChars_of_length_le (h : s.length ≤ m) : truncateChars s m = s := by
  rw [truncateChars, if_pos h]
  split
  next hm =>
      rw [hm, Nat.le_zero] at h
      exact (List.eq_nil_of_length_eq_zero h).symm
  next => rfl

/-- Of a text that is too long the characters within the limit are left, and the ellipsis follows them. -/
theorem truncateChars_of_lt (hm : 0 < m) (h : m < s.length) : truncateChars s m = s.take m ++ [ellipsis] := by
  rw [truncateChars, if_neg (Nat.ne_of_gt hm), if_neg (Nat.not_le.2 h)]

/-- The limit zero hides the text. -/
theorem truncateChars_zero (s : List Char) : truncateChars s 0 = [] := if_pos rfl

/-- A text that is cut is longer than the limit by the ellipsis. -/
theorem length_truncateChars_of_lt (hm : 0 < m) (h : m < s.length) : (truncateChars s m).length = m + 1 := by
  rw [truncateChars_of_lt hm h, List.length_append, List.length_take, List.length_singleton]
  omega

/-- What is left has at most one character more than the limit. -/
theorem length_truncateChars_le (s : List Char) (m : Nat) : (truncateChars s m).length ≤ m + 1 := by
  rcases Nat.eq_zero_or_pos m with rfl | hm
  · simp [truncateChars_zero]
  · rcases Nat.lt_or_ge m s.length with h | h
    · exact Nat.le_of_eq (length_truncateChars_of_lt hm h)
    · rw [truncateChars_of_length_le h]
      omega

/-! ### Cutting twice -/

/-- **Only the characters within the limit matter** of a text that is too long. -/
theorem truncateChars_congr (hs : n < s.length) (ht : n < t.length) (h : s.take n = t.take n) :
    truncateChars s n = truncateChars t n := by
  rcases Nat.eq_zero_or_pos n with rfl | hn
  · rw [truncateChars_zero, truncateChars_zero]
  · rw [truncateChars_of_lt hn hs, truncateChars_of_lt hn ht, h]

/-- **Cutting twice is cutting at the smaller limit.** The cases are whether the first limit cuts the text, and if so,
whether the second one reaches behind the ellipsis that was added. -/
theorem truncateChars_truncateChars (s : List Char) (m n : Nat) :
    truncateChars (truncateChars s m) n = truncateChars s (min m n) := by
  rcases Nat.eq_zero_or_pos m with rfl | hm
  · rw [truncateChars_zero, Nat.zero_min, truncateChars_zero, truncateChars_of_length_le (Nat.zero_le n)]
  rcases Nat.lt_or_ge m s.length with hlong | hshort
  · have added := length_truncateChars_of_lt hm hlong
    rcases Nat.lt_or_ge m n with hmn | hnm
    · -- the second limit has room for the ellipsis
      rw [Nat.min_eq_left (Nat.le_of_lt hmn), truncateChars_of_length_le (by omega)]
    · -- the second limit takes the ellipsis off again, also if it is the first one
      have begins : (truncateChars s m).take n = s.take n := by
        rw [truncateChars_of_lt hm hlong, List.take_append_of_le_length (by rw [List.length_take]; omega),
          List.take_take, Nat.min_eq_left hnm]
      rw [Nat.min_eq_right hnm, truncateChars_congr (by omega) (by omega) begins]
  · rw [truncateChars_of_length_le hshort]
    rcases Nat.lt_or_ge n m with hnm | hmn
    · rw [Nat.min_eq_right (Nat.le_of_lt hnm)]
    · rw [Nat.min_eq_left hmn, truncateChars_of_length_le (by omega), truncateChars_of_length_le hshort]

/-! ### What a limit leaves as it is -/

/-- **A limit leaves a text as it is** exactly if the text is within it, or is already cut at it. -/
theorem truncateChars_eq_self_iff (hm : 0 < m) :
    truncateChars s m = s ↔ s.length ≤ m ∨ s = s.take m ++ [ellipsis] := by
  rcases Nat.lt_or_ge m s.length with h | h
  · rw [truncateChars_of_lt hm h, or_iff_right (Nat.not_le.2 h), eq_comm]
  · exact iff_of_true (truncateChars_of_length_le h) (.inl h)

/-! ### Texts and their bytes -/

/-- The characters of a text that is cut. -/
theorem toList_truncate (text : String) (limit : Nat) :
    (truncate text limit).toList = truncateChars text.toList limit := String.toList_ofList

/-- The bytes of a text put together are those of both parts. -/
theorem Bytes.ofString_append (first later : String) :
    Bytes.ofString (first ++ later) = Bytes.ofString first ++ Bytes.ofString later := by
  rw [Bytes.ofString_eq, String.toList_append, Bytes.encode_append]
  rfl

/-- **A place to cut a text**: `first` is as long as the limit says, and the offset lies between two characters of the
bytes, so that those in front of it and those behind it are each the bytes of a text. -/
structure IsCut (text : String) (limit : Nat) (first later : String) (offset : Nat) : Prop where
  /-- The text consists of both parts. -/
  parts : text = first ++ later
  /-- The first part has as many characters as the limit says. -/
  length_eq : first.length = limit
  /-- The bytes in front of the offset are those of the first part. -/
  front : Bytes.decode? ((Bytes.ofString text).take offset) = some first
  /-- The bytes behind the offset are those of the other part. -/
  behind : Bytes.decode? ((Bytes.ofString text).drop offset) = some later

/-- A text that is not too short has a place to cut it. -/
theorem exists_isCut {text : String} {limit : Nat} (h : limit ≤ text.length) :
    ∃ later, IsCut text limit (String.ofList (text.toList.take limit)) later
      (Bytes.ofString (String.ofList (text.toList.take limit))).length := by
  have parts : text = String.ofList (text.toList.take limit) ++ String.ofList (text.toList.drop limit) := by
    rw [← String.toList_inj, String.toList_append, String.toList_ofList, String.toList_ofList,
      List.take_append_drop]
  have count : (String.ofList (text.toList.take limit)).length = limit := by
    rw [String.length_ofList, List.length_take, String.length_toList, Nat.min_eq_left h]
  generalize String.ofList (text.toList.take limit) = first at parts count ⊢
  generalize String.ofList (text.toList.drop limit) = later at parts
  have bytes : Bytes.ofString text = Bytes.ofString first ++ Bytes.ofString later := by
    rw [← Bytes.ofString_append, ← parts]
  refine ⟨later, parts, count, ?_, ?_⟩
  · rw [bytes, List.take_left, Bytes.decode?_eq_some_iff]
  · rw [bytes, List.drop_left, Bytes.decode?_eq_some_iff]

/-- The text that is left of one that is too long. -/
theorem truncate_of_lt {text : String} {limit : Nat} (hlimit : 0 < limit) (h : limit < text.length) :
    truncate text limit = String.ofList (text.toList.take limit) ++ "…" := by
  have mark : "…".toList = [ellipsis] := rfl
  rw [← String.toList_inj, toList_truncate, truncateChars_of_lt hlimit (by rwa [String.length_toList]),
    String.toList_append, String.toList_ofList, mark]

/-- **A text that is too long is cut between two characters**, and also between two characters of its bytes. -/
theorem exists_isCut_truncate {text : String} {limit : Nat} (hlimit : 0 < limit) (h : limit < text.length) :
    ∃ first later offset, IsCut text limit first later offset ∧ truncate text limit = first ++ "…" ∧
      Bytes.ofString (truncate text limit) = (Bytes.ofString text).take offset ++ Bytes.ofString "…" := by
  obtain ⟨later, hcut⟩ := exists_isCut (Nat.le_of_lt h)
  refine ⟨_, later, _, hcut, truncate_of_lt hlimit h, ?_⟩
  rw [truncate_of_lt hlimit h, Bytes.ofString_append, Bytes.decode?_eq_some_iff.1 hcut.front]

/-- **The laws of cutting.** Cutting at one limit and then at another is cutting at the smaller of both, so cutting
again at the same limit changes nothing, and the order of two limits does not matter. A limit that is not zero leaves
at most one character more than it says. It leaves a text as it is exactly if the text is within it or consists of the
characters within it and the ellipsis; and a text that is too long it cuts behind as many characters as it says, which
is between two characters of the bytes, and puts the ellipsis there. -/
theorem truncate_truncate (text : String) (m n : Nat) :
    truncate (truncate text m) n = truncate text (min m n) ∧
      truncate (truncate text m) m = truncate text m ∧
      truncate (truncate text m) n = truncate (truncate text n) m ∧
      (0 < m →
        (truncate text m).length ≤ m + 1 ∧
          (truncate text m = text ↔
            text.length ≤ m ∨ text = String.ofList (text.toList.take m) ++ "…") ∧
          (m < text.length →
            ∃ first later offset, IsCut text m first later offset ∧ truncate text m = first ++ "…" ∧
              Bytes.ofString (truncate text m) = (Bytes.ofString text).take offset ++ Bytes.ofString "…")) := by
  have smaller (m n : Nat) : truncate (truncate text m) n = truncate text (min m n) := by
    rw [← String.toList_inj, toList_truncate, toList_truncate, toList_truncate, truncateChars_truncateChars]
  have mark : "…".toList = [ellipsis] := rfl
  refine ⟨smaller m n, ?_, ?_, fun hm => ⟨?_, ?_, exists_isCut_truncate hm⟩⟩
  · rw [smaller, Nat.min_self]
  · rw [smaller, smaller, Nat.min_comm]
  · rw [← String.length_toList, toList_truncate]
    exact length_truncateChars_le _ _
  · rw [← String.toList_inj, toList_truncate, truncateChars_eq_self_iff hm, String.length_toList,
      ← String.toList_inj, String.toList_append, String.toList_ofList, mark]

/-- A text that is cut in front of an ellipsis of its own, and has characters of two bytes. -/
theorem truncate_truncate_ownEllipsis :
    0 < 2 ∧ 2 < "éé…é".length ∧ truncate (truncate "éé…é" 2) 3 = truncate "éé…é" 2 ∧
      ∃ first later offset, IsCut "éé…é" 2 first later offset ∧ truncate "éé…é" 2 = first ++ "…" ∧
        Bytes.ofString (truncate "éé…é" 2) = (Bytes.ofString "éé…é").take offset ++ Bytes.ofString "…" := by
  obtain ⟨smaller, -, -, bounded⟩ := truncate_truncate "éé…é" 2 3
  have long : 2 < "éé…é".length := by decide
  exact ⟨by decide, long, smaller, (bounded (by decide)).2.2 long⟩

end SuiteReport
