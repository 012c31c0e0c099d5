import Grafbase.Foundation.Entries

/-! HTTP headers.

A header map holds the values of each name together, names in the order in
which they were first added. Names are lower-case tokens, so that comparing
them does not depend on case. Where only the names matter, the map is any type
with the operations of the library and what is documented about them.
-/

set_option autoImplicit false

namespace Grafbase.Execution
open Foundation List

abbrev Bytes := List UInt8

def asBytes (text : String) : Bytes := text.toUTF8.data.toList

theorem asBytes_inj {first second : String} (same : asBytes first = asBytes second) : first = second := by
  have data : first.toByteArray.data = second.toByteArray.data := Array.toList_inj.mp same
  exact String.toByteArray_inj.mp (ByteArray.ext data)

theorem asBytes_eq_flatMap (text : String) : asBytes text = text.toList.flatMap String.utf8EncodeChar := by
  have encoded : text.toByteArray = text.toList.utf8Encode := by
    rw [← String.toByteArray_ofList, String.ofList_toList]
  rw [asBytes, String.toUTF8, encoded, List.utf8Encode, data_toByteArray]

/-- Only the null character is encoded with a null byte. -/
theorem ne_zero_of_mem_asBytes {text : String} (nulFree : ∀ c ∈ text.toList, c.toNat ≠ 0) :
    ∀ byte ∈ asBytes text, byte ≠ 0 := by
  rw [asBytes_eq_flatMap]
  rintro byte member rfl
  obtain ⟨c, inText, encoded⟩ := mem_flatMap.mp member
  have nonzero : c.val.toNat ≠ 0 := nulFree c inText
  have digit {value : Nat} (isZero : (0 : UInt8) = UInt8.ofNat value) : value % 256 = 0 := by
    simpa using (congrArg UInt8.toNat isZero).symm
  simp only [String.utf8EncodeChar] at encoded
  split at encoded
  · simp only [mem_singleton] at encoded
    have := digit encoded
    omega
  · split at encoded
    · simp only [mem_cons, not_mem_nil, or_false] at encoded
      rcases encoded with same | same <;> have := digit same <;> omega
    · split at encoded
      · simp only [mem_cons, not_mem_nil, or_false] at encoded
        rcases encoded with same | same | same <;> have := digit same <;> omega
      · simp only [mem_cons, not_mem_nil, or_false] at encoded
        rcases encoded with same | same | same | same <;> have := digit same <;> omega

/-- The characters of a header name, letters in lower case. -/
def isHeaderChar (c : Char) : Bool := c.isLower || c.isDigit || "!#$%&'*+-.^_`|~".toList.contains c

def isHeaderName (text : String) : Bool :=
  0 < (asBytes text).length && (asBytes text).length < 2 ^ 16 && text.toList.all isHeaderChar

@[ext]
structure HeaderName where
  text : String
  valid : isHeaderName text = true
  deriving DecidableEq

def HeaderName.fromStr (text : String) : Option HeaderName :=
  let lower := String.ofList (text.toList.map Char.toLower)
  if valid : isHeaderName lower = true then some ⟨lower, valid⟩ else none

theorem HeaderName.nonzero (name : HeaderName) : ∀ byte ∈ asBytes name.text, byte ≠ 0 := by
  refine ne_zero_of_mem_asBytes fun c member zero => ?_
  have valid := name.valid
  simp only [isHeaderName, Bool.and_eq_true, all_eq_true] at valid
  have isChar := valid.2 c member
  obtain rfl : c = Char.ofNat 0 := Char.toNat_inj.mp zero
  revert isChar
  decide

theorem HeaderName.length_pos (name : HeaderName) : 0 < (asBytes name.text).length := by
  have valid := name.valid
  simp only [isHeaderName, Bool.and_eq_true, decide_eq_true_eq] at valid
  exact valid.1.1

theorem HeaderName.length_lt (name : HeaderName) : (asBytes name.text).length < 2 ^ 16 := by
  have valid := name.valid
  simp only [isHeaderName, Bool.and_eq_true, decide_eq_true_eq] at valid
  exact valid.1.2

@[ext]
structure HeaderValue where
  bytes : Bytes

/-- Only visible ASCII characters and tabs make a value. -/
def HeaderValue.fromStr (text : String) : Option HeaderValue :=
  if text.toList.all fun c => (32 ≤ c.toNat && c.toNat < 127) || c = '\t' then some ⟨asBytes text⟩ else none

/-- The operations of a header map and what is documented about names: `append` and `insert` add one, `remove` takes
out all values of one, and the names are those that iteration visits. -/
class Headers (μ : Type) where
  keys : μ → List HeaderName
  iter : μ → List (HeaderName × HeaderValue)
  get : μ → HeaderName → Option HeaderValue
  getAll : μ → HeaderName → List HeaderValue
  append : μ → HeaderName → HeaderValue → μ
  insert : μ → HeaderName → HeaderValue → μ
  remove : μ → HeaderName → μ
  mem_keys_append : ∀ headers name value other,
    other ∈ keys (append headers name value) ↔ other ∈ keys headers ∨ other = name
  mem_keys_insert : ∀ headers name value other,
    other ∈ keys (insert headers name value) ↔ other ∈ keys headers ∨ other = name
  mem_keys_remove : ∀ headers name other, other ∈ keys (remove headers name) ↔ other ∈ keys headers ∧ other ≠ name
  mem_keys_iff : ∀ headers name, name ∈ keys headers ↔ ∃ value, (name, value) ∈ iter headers

attribute [simp] Headers.mem_keys_append Headers.mem_keys_insert Headers.mem_keys_remove

structure HeaderMap where
  entries : List (HeaderName × List HeaderValue)
  distinct : (entries.map Prod.fst).Nodup
  filled : ∀ entry ∈ entries, entry.2 ≠ []

namespace HeaderMap

def empty : HeaderMap := ⟨[], nodup_nil, by simp⟩

def keys (headers : HeaderMap) : List HeaderName := headers.entries.map Prod.fst

def iter (headers : HeaderMap) : List (HeaderName × HeaderValue) :=
  headers.entries.flatMap fun (name, values) => values.map (name, ·)

def getAll (headers : HeaderMap) (name : HeaderName) : List HeaderValue :=
  ((headers.entries.find? (·.1 = name)).map Prod.snd).getD []

def get (headers : HeaderMap) (name : HeaderName) : Option HeaderValue := (headers.getAll name).head?

def append (headers : HeaderMap) (name : HeaderName) (value : HeaderValue) : HeaderMap where
  entries := upsert name [] (· ++ [value]) headers.entries
  distinct := nodup_map_fst_upsert headers.distinct
  filled := forall_mem_upsert headers.filled (by simp) (by simp)

def insert (headers : HeaderMap) (name : HeaderName) (value : HeaderValue) : HeaderMap where
  entries := upsert name [] (fun _ => [value]) headers.entries
  distinct := nodup_map_fst_upsert headers.distinct
  filled := forall_mem_upsert headers.filled (by simp) (by simp)

def remove (headers : HeaderMap) (name : HeaderName) : HeaderMap where
  entries := takeOut name headers.entries
  distinct := nodup_map_fst_takeOut headers.distinct
  filled entry member := headers.filled entry (mem_of_mem_takeOut member)

instance : Headers HeaderMap where
  keys := keys
  iter := iter
  get := get
  getAll := getAll
  append := append
  insert := insert
  remove := remove
  mem_keys_append _ _ _ _ := mem_map_fst_upsert
  mem_keys_insert _ _ _ _ := mem_map_fst_upsert
  mem_keys_remove headers _ _ := mem_map_fst_takeOut headers.distinct
  mem_keys_iff headers name := by
    simp only [keys, iter, mem_map, mem_flatMap]
    constructor
    · rintro ⟨⟨_, values⟩, member, rfl⟩
      obtain ⟨value, held⟩ := exists_mem_of_ne_nil values (headers.filled _ member)
      exact ⟨value, _, member, value, held, rfl⟩
    · rintro ⟨value, entry, member, _, _, same⟩
      exact ⟨entry, member, congrArg Prod.fst same⟩

end HeaderMap
end Grafbase.Execution
