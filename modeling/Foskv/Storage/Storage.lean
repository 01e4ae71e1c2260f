import Foskv.Rpc.Messages
import Mathlib.Data.List.Basic
import Mathlib.Data.List.TakeWhile

/-! A RocksDB instance as a map with atomic write batches. -/
namespace Foskv

/-- The content of one database. -/
abbrev Storage := Bytes → Option Bytes

namespace Storage

def empty : Storage := fun _ => none

def get (st : Storage) (key : Bytes) : Option Bytes := st key

def put (st : Storage) (key value : Bytes) : Storage := Function.update st key (some value)

def delete (st : Storage) (key : Bytes) : Storage := Function.update st key none

/-- One entry of a `rocksdb::WriteBatch`. -/
inductive WriteOp
  | put (key value : Bytes)
  | delete (key : Bytes)

def WriteOp.run (st : Storage) : WriteOp → Storage
  | .put key value => st.put key value
  | .delete key => st.delete key

/-- The operations of a batch take effect together and in order. -/
def batchWrite (st : Storage) (wb : List WriteOp) : Storage := wb.foldl WriteOp.run st

def multiGet (st : Storage) (keys : List Bytes) : List (Option Bytes) := keys.map st.get

@[simp] theorem get_put_self (st : Storage) (k v : Bytes) : (st.put k v).get k = some v := by
  simp [get, put]

theorem get_put_of_ne (st : Storage) {k k' : Bytes} (v : Bytes) (h : k' ≠ k) :
    (st.put k v).get k' = st.get k' := by
  simp [get, put, Function.update_of_ne h]

theorem get_delete_of_ne (st : Storage) {k k' : Bytes} (h : k' ≠ k) :
    (st.delete k).get k' = st.get k' := by
  simp [get, delete, Function.update_of_ne h]

/-- The key an operation writes. -/
def WriteOp.key : WriteOp → Bytes
  | .put key _ => key
  | .delete key => key

/-- A batch leaves every key alone that none of its operations names. -/
theorem get_batchWrite_of_forall_ne (st : Storage) (wb : List WriteOp) {k : Bytes}
    (h : ∀ op ∈ wb, k ≠ op.key) : (st.batchWrite wb).get k = st.get k := by
  induction wb generalizing st with
  | nil => rfl
  | cons op wb ih =>
    have hop := h op (by simp)
    change (batchWrite (op.run st) wb).get k = st.get k
    rw [ih _ (fun o ho => h o (by simp [ho]))]
    cases op with
    | put key value => exact get_put_of_ne st value hop
    | delete key => exact get_delete_of_ne st hop

theorem batchWrite_concat (st : Storage) (wb : List WriteOp) (op : WriteOp) :
    st.batchWrite (wb ++ [op]) = op.run (st.batchWrite wb) := by
  simp [batchWrite]

end Storage

/-- `std::to_string` of an unsigned number: its decimal digits. -/
def toString (n : ℕ) : Bytes := (Nat.toDigits 10 n).map fun c => UInt8.ofNat c.toNat

private def isSpace (c : UInt8) : Bool := c = 32 || (9 ≤ c && c ≤ 13)

private def isDigit (c : UInt8) : Bool := 48 ≤ c && c ≤ 57

private def digitsValue (ds : Bytes) : ℕ := ds.foldl (fun n d => 10*n + (d.toNat - 48)) 0

/-- `std::stoull`: blanks, a sign and the longest run of digits; it throws on an empty
run and on a value of more than 64 bits, and a minus sign negates in 64 bits. -/
def stoull (s : Bytes) : Option ℕ :=
  let s := s.dropWhile isSpace
  let negative := s.head? = some 45
  let s := if s.head? = some 45 ∨ s.head? = some 43 then s.tail else s
  let ds := s.takeWhile isDigit
  if ds.isEmpty ∨ UInt64.size ≤ digitsValue ds then none
  else if negative then some ((UInt64.size - digitsValue ds) % UInt64.size)
  else some (digitsValue ds)

section Decimals
variable {n : ℕ}

/-- A decimal digit as a byte. -/
private theorem digit_bounds {c : Char} (h : c ∈ Nat.toDigits 10 n) :
    (UInt8.ofNat c.toNat).toNat = c.toNat ∧ 48 ≤ c.toNat ∧ c.toNat ≤ 57 := by
  have hdigit := Nat.isDigit_of_mem_toDigits (by decide) (by decide) h
  simp only [Char.isDigit, Bool.and_eq_true, decide_eq_true_eq] at hdigit
  have hle : c.toNat ≤ 57 := hdigit.2
  exact ⟨UInt8.toNat_ofNat_of_lt' (by rw [UInt8.size]; omega),hdigit.1,hle⟩

private theorem isDigit_of_mem {c : UInt8} (h : c ∈ toString n) : isDigit c = true := by
  obtain ⟨d,hd,rfl⟩ := List.mem_map.mp h
  obtain ⟨hnat,hlow,hhigh⟩ := digit_bounds hd
  simp only [isDigit, Bool.and_eq_true, decide_eq_true_eq, UInt8.le_iff_toNat_le, hnat]
  exact ⟨hlow,hhigh⟩

private theorem digitsValue_toString : digitsValue (toString n) = n := by
  rw [digitsValue, toString, List.foldl_map]
  refine Eq.trans (List.foldl_ext _ _ _ fun a c hc => ?_) (@Nat.ofDigitChars_ten_toDigits n)
  rw [(digit_bounds hc).1]
  rfl

theorem toString_ne_nil : toString n ≠ [] := by
  simp [toString]

/-- Different numbers have different keys. -/
theorem toString_injective : Function.Injective toString := by
  intro m n h
  rw [← @digitsValue_toString m, h, digitsValue_toString]

/-- A key with a letter is not the key of a number. -/
theorem ne_toString {key : Bytes} {c : UInt8} (hc : c ∈ key) (hletter : 57 < c) :
    key ≠ toString n := by
  rintro rfl
  obtain ⟨d,hd,rfl⟩ := List.mem_map.mp hc
  obtain ⟨hnat,-,hhigh⟩ := digit_bounds hd
  rw [UInt8.lt_iff_toNat_lt, hnat] at hletter
  exact absurd hletter (Nat.not_lt.mpr hhigh)

theorem stoull_toString (hn : n < UInt64.size) : stoull (toString n) = some n := by
  obtain ⟨c,cs,hcs⟩ := List.exists_cons_of_ne_nil (@toString_ne_nil n)
  have hdigit : isDigit c = true := isDigit_of_mem (n := n) (hcs ▸ List.mem_cons_self)
  have hspace : isSpace c = false := by
    simp only [isDigit, Bool.and_eq_true, decide_eq_true_eq] at hdigit
    simp only [isSpace, Bool.or_eq_false_iff, Bool.and_eq_false_iff, decide_eq_false_iff_not]
    exact ⟨by rintro rfl; exact absurd hdigit.1 (by decide),
      Or.inr fun hle => absurd (UInt8.le_trans hdigit.1 hle) (by decide)⟩
  have hdrop : (toString n).dropWhile isSpace = toString n := by
    rw [hcs, List.dropWhile_cons_of_neg (by simp [hspace])]
  have hminus : (toString n).head? ≠ some 45 := by
    rintro h
    rw [hcs, List.head?_cons, Option.some.injEq] at h
    exact absurd (h ▸ hdigit) (by decide)
  have hplus : (toString n).head? ≠ some 43 := by
    rintro h
    rw [hcs, List.head?_cons, Option.some.injEq] at h
    exact absurd (h ▸ hdigit) (by decide)
  have htake : (toString n).takeWhile isDigit = toString n :=
    List.takeWhile_eq_self_iff.mpr fun c hc => isDigit_of_mem hc
  have hok : ¬((toString n).isEmpty ∨ UInt64.size ≤ n) := by
    simp only [List.isEmpty_iff, toString_ne_nil, false_or, Nat.not_le, hn]
  simp only [stoull, hdrop, hminus, hplus, or_self, if_false, htake, digitsValue_toString, hok]

end Decimals

example : toString 120 = [49,50,48] := by decide
example : stoull (toString 120) = some 120 := by decide

end Foskv
