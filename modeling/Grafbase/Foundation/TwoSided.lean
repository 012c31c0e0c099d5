import Grafbase.Foundation.Entries

/-! Maps that hold for each key what two sources say about it.

The first source is entered completely before the second one. Of several
entries of one source for a key, the last one counts.
-/

set_option autoImplicit false

namespace Grafbase.Foundation
open List
variable {κ ν : Type} [DecidableEq κ]

abbrev TwoSided (κ ν : Type) := List (κ × (Option ν × Option ν))

def insertSource (map : TwoSided κ ν) (entry : κ × ν) : TwoSided κ ν :=
  upsert entry.1 (none, none) (fun _ => (some entry.2, none)) map

def mergeTarget (map : TwoSided κ ν) (entry : κ × ν) : TwoSided κ ν :=
  upsert entry.1 (none, none) (fun sides => (sides.1, some entry.2)) map

def TwoSided.get (map : TwoSided κ ν) (key : κ) : Option (Option ν × Option ν) := map.lookup key

def combine (source target : List (κ × ν)) : TwoSided κ ν := target.foldl mergeTarget (source.foldl insertSource [])

def lastValue (entries : List (κ × ν)) (key : κ) : Option ν := entries.reverse.lookup key

theorem lastValue_cons (entry : κ × ν) (rest : List (κ × ν)) (key : κ) :
    lastValue (entry :: rest) key = (lastValue rest key).or (if entry.1 = key then some entry.2 else none) := by
  obtain ⟨own, value⟩ := entry
  rw [lastValue, reverse_cons, lookup_append, lookup_cons, lastValue]
  by_cases same : own = key
  · simp [same]
  · have apart : (key == own) = false := beq_eq_false_iff_ne.mpr (Ne.symm same)
    simp [same, apart]

variable {entries : List (κ × ν)} {key : κ} {holds : κ × (Option ν × Option ν) → Prop}

theorem mem_of_lastValue {value : ν} (found : lastValue entries key = some value) : (key, value) ∈ entries :=
  mem_reverse.mp (mem_of_lookup_eq_some found)

theorem isSome_lastValue {value : ν} (member : (key, value) ∈ entries) : (lastValue entries key).isSome :=
  lookup_isSome_iff.mpr ⟨_, mem_reverse.mpr member, beq_self_eq_true key⟩

/-- Where the entries of a key agree, the last one speaks for all of them. -/
theorem map_lastValue_eq_some_iff {β : Type} {f : ν → β} {y : β}
    (agree : ∀ first second, (key, first) ∈ entries → (key, second) ∈ entries → f first = f second) :
    (lastValue entries key).map f = some y ↔ ∃ value, (key, value) ∈ entries ∧ f value = y := by
  rw [Option.map_eq_some_iff]
  constructor
  · rintro ⟨value, found, rfl⟩
    exact ⟨value, mem_of_lastValue found, rfl⟩
  · rintro ⟨value, member, rfl⟩
    obtain ⟨last, found⟩ := Option.isSome_iff_exists.mp (isSome_lastValue member)
    exact ⟨last, found, agree last value (mem_of_lastValue found) member⟩

/-- A key is entered by one of the sources. -/
def sides (source target : List (κ × ν)) (key : κ) : Option (Option ν × Option ν) :=
  match lastValue source key, lastValue target key with
  | none, none => none
  | first, second => some (first, second)

theorem lookup_foldl_insertSource (source : List (κ × ν)) (map : TwoSided κ ν) (key : κ) :
    (source.foldl insertSource map).lookup key =
      match lastValue source key with
      | some value => some (some value, none)
      | none => map.lookup key := by
  induction source generalizing map with
  | nil => rfl
  | cons entry rest ih =>
    rw [foldl_cons, ih, lastValue_cons]
    cases lastValue rest key with
    | some value => rfl
    | none =>
      rw [insertSource, lookup_upsert]
      by_cases same : entry.1 = key
      · simp [same]
      · simp [same, Ne.symm same]

theorem lookup_combine (source target : List (κ × ν)) (key : κ) :
    (combine source target).lookup key = sides source target key := by
  have merged (map : TwoSided κ ν) : (target.foldl mergeTarget map).lookup key =
      match lastValue target key with
      | some value => some ((map.lookup key).elim none Prod.fst, some value)
      | none => map.lookup key := by
    induction target generalizing map with
    | nil => rfl
    | cons entry rest ih =>
      rw [foldl_cons, ih, lastValue_cons, mergeTarget, lookup_upsert]
      -- A later entry of the target replaces this one, but keeps the side of the source.
      by_cases same : entry.1 = key
      · subst same
        cases lastValue rest entry.1 <;> cases map.lookup entry.1 <;> simp
      · cases lastValue rest key <;> simp [same, Ne.symm same]
  rw [combine, merged, lookup_foldl_insertSource, sides]
  cases lastValue source key <;> cases lastValue target key <;> rfl

theorem nodup_map_fst_combine (source target : List (κ × ν)) : ((combine source target).map Prod.fst).Nodup := by
  have inserted : ((source.foldl insertSource []).map Prod.fst).Nodup :=
    nodup_map_fst_foldl_upsert Prod.fst _ (fun entry _ => (some entry.2, none)) source nodup_nil
  exact nodup_map_fst_foldl_upsert Prod.fst _ (fun entry sides => (sides.1, some entry.2)) target inserted

variable {source target : List (κ × ν)}

/-- The map holds for each key what the sources say last. -/
theorem mem_combine {first second : Option ν} : (key, (first, second)) ∈ combine source target ↔
      first = lastValue source key ∧ second = lastValue target key ∧ (first.isSome ∨ second.isSome) := by
  have found : (key, (first, second)) ∈ combine source target ↔ sides source target key = some (first, second) := by
    rw [← lookup_combine]
    exact ⟨lookup_eq_some_of_mem (nodup_map_fst_combine source target), mem_of_lookup_eq_some⟩
  rw [found, sides]
  constructor
  · intro same
    split at same
    · cases same
    · cases Option.some.inj same
      cases isFirst : lastValue source key <;> cases isSecond : lastValue target key <;> simp_all
  · rintro ⟨rfl, rfl, present⟩
    split
    · next isFirst isSecond => simp [isFirst, isSecond] at present
    · rfl

theorem get_combine (present : (lastValue source key).isSome ∨ (lastValue target key).isSome) :
    (combine source target).get key = some (lastValue source key, lastValue target key) :=
  lookup_eq_some_of_mem (nodup_map_fst_combine source target) (mem_combine.mpr ⟨rfl, rfl, present⟩)

/-- Something holds of every entry if and only if it holds of what the sources say of every key. -/
theorem forall_mem_combine : (∀ entry ∈ combine source target, holds entry) ↔ ∀ key, (lastValue source key).isSome ∨
    (lastValue target key).isSome → holds (key, (lastValue source key, lastValue target key)) := by
  constructor
  · exact fun each key present => each _ (mem_combine.mpr ⟨rfl, rfl, present⟩)
  · rintro each ⟨key, first, second⟩ member
    obtain ⟨rfl, rfl, present⟩ := mem_combine.mp member
    exact each key present

theorem exists_mem_combine : (∃ entry ∈ combine source target, holds entry) ↔
      ∃ key, ((lastValue source key).isSome ∨ (lastValue target key).isSome) ∧
        holds (key, (lastValue source key, lastValue target key)) := by
  constructor
  · rintro ⟨⟨key, first, second⟩, member, isSo⟩
    obtain ⟨rfl, rfl, present⟩ := mem_combine.mp member
    exact ⟨key, present, isSo⟩
  · rintro ⟨key, present, isSo⟩
    exact ⟨_, mem_combine.mpr ⟨rfl, rfl, present⟩, isSo⟩

end Grafbase.Foundation
