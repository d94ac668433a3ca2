import Mathlib.Data.List.Basic
import SuiteReport.Results.Record
/-!
# Looking up records

Recording a result under a key changes what is found under that key and nothing else, so after any number of
recordings the last one under a key is found there, and no key is kept twice.

## Main definitions

* `Results.Distinct`: no key occurs twice.
* `Results.insertAll`: several results recorded one after the other.

## Main results

* `Results.get?_insert`: what is found after a recording.
* `Results.get?_insertAll`: what is found after several.
-/

namespace SuiteReport.Results

/-- No key occurs twice. -/
def Distinct (r : Results) : Prop := (r.entries.map Prod.fst).Nodup

/-- Records several results under their keys, one after the other. -/
def insertAll (r : Results) (entries : List (String × Record)) : Results :=
  entries.foldl (fun r entry => r.insert entry.1 entry.2) r

@[simp]
theorem insertAll_nil (r : Results) : r.insertAll [] = r := rfl

theorem insertAll_append (r : Results) (entries later : List (String × Record)) :
    r.insertAll (entries ++ later) = (r.insertAll entries).insertAll later :=
  List.foldl_append

theorem distinct_empty : empty.Distinct := List.nodup_nil

/-- Without the entries of one key, the others are found where they were. -/
theorem lookup_filter_ne {key other : String} (h : other ≠ key) (entries : List (String × Record)) :
    (entries.filter (·.1 != key)).lookup other = entries.lookup other := by
  induction entries with
  | nil => rfl
  | cons entry rest ih =>
      by_cases hkey : entry.1 = key
      · have hother : (other == entry.1) = false := by simpa [hkey] using h
        rw [List.filter_cons_of_neg (by simp [hkey]), ih, List.lookup_cons, hother]
      · rw [List.filter_cons_of_pos (by simp [hkey]), List.lookup_cons, List.lookup_cons, ih]

/-- A recording changes what is found under its key and nothing else. -/
theorem get?_insert (r : Results) (key other : String) (record : Record) :
    (r.insert key record).get? other = if other = key then some record else r.get? other := by
  rw [insert, get?, List.lookup_cons]
  by_cases h : other = key
  · simp [h]
  · have hother : (other == key) = false := by simpa using h
    rw [hother, lookup_filter_ne h, if_neg h, get?]

/-- A recording keeps the keys distinct. -/
theorem distinct_insert {r : Results} (h : r.Distinct) (key : String) (record : Record) :
    (r.insert key record).Distinct := by
  rw [Distinct, insert, List.map_cons, List.nodup_cons]
  constructor
  · intro hmem
    obtain ⟨entry, hentry, hkey⟩ := List.mem_map.1 hmem
    simpa [hkey] using List.of_mem_filter hentry
  · exact List.Nodup.sublist (List.filter_sublist.map Prod.fst) h

/-- **The last result under a key is the one found there**, and where there is none, what was found before. -/
theorem get?_insertAll (r : Results) (entries : List (String × Record)) (key : String) :
    (r.insertAll entries).get? key = ((entries.reverse.find? (·.1 == key)).map Prod.snd).or (r.get? key) := by
  induction entries generalizing r with
  | nil => rfl
  | cons entry rest ih =>
      rw [insertAll, List.foldl_cons]
      refine (ih _).trans ?_
      rw [get?_insert, List.reverse_cons, List.find?_append]
      by_cases h : key = entry.1
      · cases rest.reverse.find? (·.1 == key) <;> simp [h]
      · have hother : (entry.1 == key) = false := by simpa using fun he => h he.symm
        cases rest.reverse.find? (·.1 == key) <;> simp [h, hother]

/-- There is a record under the keys of the entries, and under no others. -/
theorem isSome_get?_iff (r : Results) (key : String) : (r.get? key).isSome ↔ key ∈ r.entries.map Prod.fst := by
  obtain ⟨entries⟩ := r
  induction entries with
  | nil => simp [get?]
  | cons entry rest ih =>
      rw [get?, List.lookup_cons, List.map_cons, List.mem_cons, ← ih]
      by_cases h : key = entry.1
      · simp [h]
      · have hother : (key == entry.1) = false := by simpa using h
        rw [hother]
        exact (or_iff_right h).symm

/-- Several recordings keep the keys distinct. -/
theorem distinct_insertAll {r : Results} (h : r.Distinct) (entries : List (String × Record)) :
    (r.insertAll entries).Distinct := by
  induction entries generalizing r with
  | nil => exact h
  | cons entry rest ih => exact ih (distinct_insert h entry.1 entry.2)

end SuiteReport.Results
