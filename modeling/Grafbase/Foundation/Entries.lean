import Grafbase.Foundation.Slices
import Mathlib.Data.List.Nodup

/-! Maps and sets as lists in insertion order. -/

set_option autoImplicit false

namespace Grafbase.Foundation
open List
variable {κ ν : Type} [DecidableEq κ]

/-- `HashMap::entry(key).or_insert(default)` followed by a change of the value. -/
def upsert (key : κ) (default : ν) (change : ν → ν) : List (κ × ν) → List (κ × ν)
  | [] => [(key, change default)]
  | (other, value) :: rest =>
    if other = key then (other, change value) :: rest else (other, value) :: upsert key default change rest

variable {key : κ} {default : ν} {change : ν → ν} {entries : List (κ × ν)}

/-- A new key is entered behind the others; otherwise the first entry of the key changes. -/
theorem upsert_cases (key : κ) (default : ν) (change : ν → ν) (entries : List (κ × ν)) :
    key ∉ entries.map Prod.fst ∧ upsert key default change entries = entries ++ [(key, change default)] ∨
      ∃ before value after, entries = before ++ (key, value) :: after ∧ key ∉ before.map Prod.fst ∧
        upsert key default change entries = before ++ (key, change value) :: after := by
  induction entries with
  | nil => exact .inl ⟨not_mem_nil, rfl⟩
  | cons first rest ih =>
    rw [upsert]
    by_cases same : first.1 = key
    · subst same
      exact .inr ⟨[], first.2, rest, rfl, not_mem_nil, if_pos rfl⟩
    · rw [if_neg same]
      rcases ih with ⟨absent, result⟩ | ⟨before, value, after, rfl, absent, result⟩ <;> rw [result]
      · exact .inl ⟨not_mem_cons_of_ne_of_not_mem (Ne.symm same) absent, rfl⟩
      · exact .inr ⟨first :: before, value, after, rfl, not_mem_cons_of_ne_of_not_mem (Ne.symm same) absent, rfl⟩

/-- What holds of every entry still does if it holds of a new one and of a changed one. -/
theorem forall_mem_upsert {holds : κ × ν → Prop} (all : ∀ entry ∈ entries, holds entry)
    (fresh : holds (key, change default)) (changed : ∀ old, (key, old) ∈ entries → holds (key, change old)) :
    ∀ entry ∈ upsert key default change entries, holds entry := by
  rcases upsert_cases key default change entries with ⟨_, result⟩ | ⟨before, value, after, rfl, _, result⟩ <;>
    rw [result, forall_mem_append]
  · exact ⟨all, forall_mem_singleton.mpr fresh⟩
  · rw [forall_mem_append, forall_mem_cons] at all
    exact ⟨all.1, forall_mem_cons.mpr ⟨changed value (by simp), all.2.2⟩⟩

/-- Entries under other keys are not touched. -/
theorem filter_upsert {keep : κ → Bool} (other : keep key = false) :
    (upsert key default change entries).filter (fun entry => keep entry.1) =
      entries.filter fun entry => keep entry.1 := by
  rcases upsert_cases key default change entries with ⟨_, result⟩ | ⟨before, value, after, rfl, _, result⟩ <;>
    simp [result, other]

section Lists
variable {α : Type} {lists : List (κ × List α)}

/-- The key has an entry whose list holds the value. -/
def Lists (lists : List (κ × List α)) (key : κ) (value : α) : Prop := ∃ values, (key, values) ∈ lists ∧ value ∈ values

theorem lists_upsert {other : κ} {added value : α} : Lists (upsert key [] (· ++ [added]) lists) other value ↔
      Lists lists other value ∨ other = key ∧ value = added := by
  rcases upsert_cases key [] (· ++ [added]) lists with ⟨_, result⟩ | ⟨before, values, after, rfl, _, result⟩ <;>
    simp only [Lists, result, mem_append, mem_cons, Prod.mk.injEq]
  · simp [or_and_right, exists_or, and_assoc]
  · simp only [or_and_right, exists_or, and_assoc, exists_eq_left, exists_and_left, mem_append, mem_singleton]
    grind

omit [DecidableEq κ] in
theorem lists_filter {keep : κ → Bool} {value : α} (kept : keep key = true) :
    Lists (lists.filter fun entry => keep entry.1) key value ↔ Lists lists key value := by
  simp [Lists, kept]

end Lists

section Keys

theorem map_fst_upsert (key : κ) (default : ν) (change : ν → ν) (entries : List (κ × ν)) :
    (upsert key default change entries).map Prod.fst =
      if key ∈ entries.map Prod.fst then entries.map Prod.fst else entries.map Prod.fst ++ [key] := by
  rcases upsert_cases key default change entries with ⟨absent, result⟩ | ⟨before, value, after, rfl, _, result⟩
  · rw [if_neg absent, result, map_append]
    rfl
  · simp [result]

variable {other : κ} {α : Type} {name : α → κ} {items : List α}

theorem mem_map_fst_upsert :
    other ∈ (upsert key default change entries).map Prod.fst ↔ other ∈ entries.map Prod.fst ∨ other = key := by
  rw [map_fst_upsert]
  split
  · next present => exact ⟨.inl, fun either => either.elim id fun same => same ▸ present⟩
  · simp

theorem nodup_map_fst_upsert (distinct : (entries.map Prod.fst).Nodup) :
    ((upsert key default change entries).map Prod.fst).Nodup := by
  rw [map_fst_upsert]
  split
  · exact distinct
  · next absent =>
    refine nodup_append.mpr ⟨distinct, nodup_singleton _, fun other member last isLast same => ?_⟩
    exact absent (mem_singleton.mp isLast ▸ same ▸ member)

/-- The entry of a key is taken out, and the last entry takes its place. -/
def takeOut (key : κ) (entries : List (κ × ν)) : List (κ × ν) :=
  match entries.findIdx? (·.1 = key) with
  | none => entries
  | some index => swapRemove entries index

theorem takeOut_cases (key : κ) (entries : List (κ × ν)) : key ∉ entries.map Prod.fst ∧ takeOut key entries = entries ∨
      ∃ value, ((key, value) :: takeOut key entries).Perm entries := by
  rw [takeOut]
  split
  · next missing =>
    refine .inl ⟨fun member => ?_, rfl⟩
    obtain ⟨entry, inEntries, rfl⟩ := mem_map.mp member
    have := findIdx?_eq_none_iff.mp missing entry inEntries
    simp at this
  · next index found =>
    obtain ⟨⟨⟨other, value⟩, held, same⟩, _⟩ := findIdx?_eq_some_iff_first.mp found
    obtain rfl : other = key := by simpa using same
    exact .inr ⟨value, swapRemove_perm held⟩

theorem nodup_map_fst_takeOut (distinct : (entries.map Prod.fst).Nodup) :
    ((takeOut key entries).map Prod.fst).Nodup := by
  rcases takeOut_cases key entries with ⟨_, same⟩ | ⟨value, perm⟩
  · rwa [same]
  · have := (perm.map Prod.fst).nodup_iff.mpr distinct
    exact (nodup_cons.mp this).2

theorem mem_map_fst_takeOut (distinct : (entries.map Prod.fst).Nodup) :
    other ∈ (takeOut key entries).map Prod.fst ↔ other ∈ entries.map Prod.fst ∧ other ≠ key := by
  rcases takeOut_cases key entries with ⟨absent, same⟩ | ⟨value, perm⟩
  · rw [same]
    exact ⟨fun member => ⟨member, fun isKey => absent (isKey ▸ member)⟩, And.left⟩
  · have keys := perm.map Prod.fst
    have fresh := (nodup_cons.mp (keys.nodup_iff.mpr distinct)).1
    rw [← keys.mem_iff, map_cons, mem_cons]
    constructor
    · intro member
      exact ⟨.inr member, fun isKey => fresh (isKey ▸ member)⟩
    · rintro ⟨isKey | member, different⟩
      · exact absurd isKey different
      · exact member

theorem mem_of_mem_takeOut {entry : κ × ν} (member : entry ∈ takeOut key entries) : entry ∈ entries := by
  rcases takeOut_cases key entries with ⟨_, same⟩ | ⟨value, perm⟩
  · rwa [same] at member
  · exact perm.subset (mem_cons_of_mem _ member)

theorem mem_of_lookup_eq_some {value : ν} (found : entries.lookup key = some value) : (key, value) ∈ entries := by
  obtain ⟨before, after, rfl, _⟩ := lookup_eq_some_iff.mp found
  simp

theorem isSome_lookup : (entries.lookup key).isSome ↔ key ∈ entries.map Prod.fst := by
  rw [lookup_isSome_iff, mem_map]
  exact exists_congr fun entry => and_congr_right fun _ => beq_iff_eq.trans eq_comm

theorem lookup_map_values {μ : Type} (convert : ν → μ) (key : κ) (entries : List (κ × ν)) :
    (entries.map fun entry => (entry.1, convert entry.2)).lookup key = (entries.lookup key).map convert := by
  induction entries with
  | nil => rfl
  | cons entry rest ih =>
    rw [map_cons, lookup_cons, lookup_cons, ih]
    split <;> rfl

theorem lookup_upsert (key other : κ) (default : ν) (change : ν → ν) (entries : List (κ × ν)) :
    (upsert key default change entries).lookup other =
      if other = key then some (change ((entries.lookup key).getD default)) else entries.lookup other := by
  have unknown {entries : List (κ × ν)} (absent : key ∉ entries.map Prod.fst) : entries.lookup key = none :=
    Option.not_isSome_iff_eq_none.mp (mt isSome_lookup.mp absent)
  by_cases same : other = key
  · subst same
    rcases upsert_cases other default change entries with ⟨absent, result⟩ | ⟨_, _, _, rfl, absent, result⟩ <;>
      simp [result, lookup_append, unknown absent]
  · rcases upsert_cases key default change entries with ⟨_, result⟩ | ⟨_, _, _, rfl, _, result⟩ <;>
      simp [result, lookup_append, lookup_cons, beq_false_of_ne same, same]

theorem lookup_eq_some_of_mem (distinct : (entries.map Prod.fst).Nodup) {value : ν} (member : (key, value) ∈ entries) :
    entries.lookup key = some value := by
  obtain ⟨before, after, rfl⟩ := append_of_mem member
  rw [map_append, map_cons] at distinct
  refine lookup_eq_some_iff.mpr ⟨before, after, rfl, fun entry earlier => bne_iff_ne.mpr fun same => ?_⟩
  exact disjoint_of_nodup_append distinct (mem_map_of_mem earlier) (same ▸ mem_cons_self)

theorem find?_eq_some_iff_of_nodup (distinct : (items.map name).Nodup) {item : α} :
    items.find? (fun other => name other = key) = some item ↔ item ∈ items ∧ name item = key := by
  constructor
  · intro found
    exact ⟨mem_of_find?_eq_some found, by simpa using find?_some found⟩
  · rintro ⟨member, rfl⟩
    cases found : items.find? (fun other => name other = name item) with
    | none => simpa using find?_eq_none.mp found item member
    | some other =>
      have same : name other = name item := by simpa using find?_some found
      exact congrArg some (inj_on_of_nodup_map distinct (mem_of_find?_eq_some found) member same)

theorem filter_eq_toList_find? (distinct : (items.map name).Nodup) (key : κ) :
    items.filter (fun item => name item = key) = (items.find? fun item => name item = key).toList := by
  induction items with
  | nil => rfl
  | cons item rest ih =>
    obtain ⟨fresh, distinct⟩ := nodup_cons.mp distinct
    by_cases here : name item = key
    · have nothing : rest.filter (fun item => name item = key) = [] := by
        rw [filter_eq_nil_iff]
        intro other member same
        exact fresh (by rw [here, ← of_decide_eq_true same]; exact mem_map_of_mem member)
      simp [here, nothing]
    · simp [here, ih distinct]

theorem nodup_map_fst_foldl_upsert (name : α → κ) (default : α → ν) (change : α → ν → ν) (items : List α)
    (distinct : (entries.map Prod.fst).Nodup) :
    ((items.foldl (fun entries item => upsert (name item) (default item) (change item) entries) entries).map
      Prod.fst).Nodup := by
  induction items generalizing entries with
  | nil => exact distinct
  | cons item rest ih => exact ih (nodup_map_fst_upsert distinct)

theorem lookup_foldl_upsert (name : α → κ) (default : α → ν) (change : α → ν → ν)
    (distinct : (items.map name).Nodup) (entries : List (κ × ν)) (key : κ) :
    (items.foldl (fun entries item => upsert (name item) (default item) (change item) entries) entries).lookup key =
      match items.find? (fun item => name item = key) with
      | some item => some (change item ((entries.lookup key).getD (default item)))
      | none => entries.lookup key := by
  induction items generalizing entries with
  | nil => rfl
  | cons item rest ih =>
    obtain ⟨fresh, distinct⟩ := nodup_cons.mp distinct
    rw [foldl_cons, ih distinct, lookup_upsert]
    by_cases here : name item = key
    · have absent : rest.find? (fun other => name other = key) = none := by
        rw [find?_eq_none]
        intro other member same
        exact fresh (by rw [here, ← of_decide_eq_true same]; exact mem_map_of_mem member)
      simp [absent, here]
    · simp [here, Ne.symm here]

section Sizes
variable [SizeOf κ] [SizeOf ν]

theorem sizeOf_lt_of_lookup {value : ν} (found : entries.lookup key = some value) : sizeOf value < sizeOf entries := by
  have smaller := sizeOf_lt_of_mem (mem_of_lookup_eq_some found)
  rw [Prod.mk.sizeOf_spec] at smaller
  omega

theorem sizeOf_takeOut_lt {value : ν} (found : entries.lookup key = some value) :
    sizeOf (takeOut key entries) < sizeOf entries := by
  rcases takeOut_cases key entries with ⟨absent, _⟩ | ⟨_, perm⟩
  · exact absurd (mem_map_of_mem (f := Prod.fst) (mem_of_lookup_eq_some found)) absent
  · have sizes := perm.sizeOf_eq_sizeOf
    rw [List.cons.sizeOf_spec] at sizes
    omega

end Sizes
end Keys

/-! ## Sets with positions

A new element is stored behind the others.
-/

structure IndexSet (α : Type) where
  items : List α
  distinct : items.Nodup

namespace IndexSet
variable {α : Type}

def empty : IndexSet α := ⟨[], nodup_nil⟩

variable [DecidableEq α] {set : IndexSet α} {other : α}

/-- The position of an element, stored at the end when it is not there yet. -/
def insertFull (set : IndexSet α) (item : α) : Nat × IndexSet α :=
  if known : item ∈ set.items then (set.items.idxOf item, set)
  else (set.items.length, ⟨set.items ++ [item], nodup_append.mpr ⟨set.distinct, nodup_singleton item,
    fun old member new isNew same => known (by rwa [← mem_singleton.mp isNew, ← same])⟩⟩)

instance : Membership α (IndexSet α) := ⟨fun set item => item ∈ set.items⟩

instance (item : α) (set : IndexSet α) : Decidable (item ∈ set) := inferInstanceAs (Decidable (item ∈ set.items))

def insert (set : IndexSet α) (item : α) : IndexSet α := (set.insertFull item).2

def extend (set : IndexSet α) (items : List α) : IndexSet α := items.foldl insert set

def ofList (items : List α) : IndexSet α := empty.extend items

omit [DecidableEq α] in
@[simp] theorem mem_items {item : α} : item ∈ set.items ↔ item ∈ set := Iff.rfl

omit [DecidableEq α] in
@[simp] theorem not_mem_empty (item : α) : item ∉ (empty : IndexSet α) := not_mem_nil

@[simp] theorem mem_insert {item : α} : other ∈ set.insert item ↔ other ∈ set ∨ other = item := by
  change other ∈ (set.insertFull item).2.items ↔ other ∈ set.items ∨ other = item
  unfold insertFull
  split
  · next known => exact ⟨.inl, fun found => found.elim id fun same => same ▸ known⟩
  · simp

@[simp] theorem mem_extend {items : List α} : other ∈ set.extend items ↔ other ∈ set ∨ other ∈ items := by
  induction items generalizing set with
  | nil => simp [extend]
  | cons item rest ih =>
    have step : set.extend (item :: rest) = (set.insert item).extend rest := rfl
    rw [step, ih, mem_insert, mem_cons, or_assoc]

@[simp] theorem mem_ofList {items : List α} : other ∈ ofList items ↔ other ∈ items := by
  simp [ofList]

end IndexSet

end Grafbase.Foundation
