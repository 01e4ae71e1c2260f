import Mathlib.Algebra.Ring.Int.Defs
import Mathlib.Algebra.Ring.Nat
import Mathlib.Data.List.Lex
import Mathlib.Data.Nat.Log

/-! JSON values with the operations of a mutable C++ value type: a subscript creates a missing
key, numbers convert to the type asked for, an object keeps its fields in the order of their
keys. -/
namespace Foskv.Generic

/-- How a call can end without its result: with an error code, by an exception, or outside what
the language and the library define. -/
inductive Failure (ε : Type)
  | error (code : ε)
  | thrown
  | undefined
  deriving DecidableEq, Repr

theorem bind_eq_ok {ε α β : Type} {x : Except ε α} {f : α → Except ε β} {b : β} :
    x >>= f = .ok b ↔ ∃ a, x = .ok a ∧ f a = .ok b := by
  cases x with
  | error e => exact iff_of_false nofun fun ⟨_,h,_⟩ => nomatch h
  | ok a => exact ⟨fun h => ⟨a,rfl,h⟩,fun ⟨_,ha,h⟩ => Except.ok.inj ha ▸ h⟩

theorem map_eq_ok {ε α β : Type} {x : Except ε α} {f : α → β} {b : β} :
    f <$> x = .ok b ↔ ∃ a, x = .ok a ∧ f a = b := by
  cases x with
  | error e => exact iff_of_false nofun fun ⟨_,h,_⟩ => nomatch h
  | ok a => simp [Functor.map, Except.map]

/-- A computation that does not end with an error code. -/
def Codeless {ε α : Type} (x : Except (Failure ε) α) : Prop := ∀ code, x ≠ .error (.error code)

section Codeless

variable {ε α β : Type} {x : Except (Failure ε) α}

@[simp] theorem codeless_ok (a : α) : Codeless (.ok a : Except (Failure ε) α) := nofun

@[simp] theorem codeless_thrown : Codeless (.error .thrown : Except (Failure ε) α) := nofun

@[simp] theorem codeless_undefined : Codeless (.error .undefined : Except (Failure ε) α) := nofun

theorem Codeless.bind {f : α → Except (Failure ε) β} (hx : Codeless x)
    (hf : ∀ a, Codeless (f a)) : Codeless (x >>= f) := by
  cases x with
  | error e =>
    intro code h
    cases h
    exact hx code rfl
  | ok a => exact hf a

theorem Codeless.map {f : α → β} (hx : Codeless x) : Codeless (f <$> x) := by
  cases x with
  | error e =>
    intro code h
    cases h
    exact hx code rfl
  | ok a => exact nofun

end Codeless

namespace Binary64

/-! A double is given by its 64 bits; its magnitude is `significand * 2^scale / 2^1075`. -/

def negative (bits : UInt64) : Bool := 2^63 ≤ bits.toNat

def exponent (bits : UInt64) : ℕ := bits.toNat/2^52 % 2^11

def scale (bits : UInt64) : ℕ := max 1 (exponent bits)

def significand (bits : UInt64) : ℕ :=
  bits.toNat % 2^52 + if exponent bits = 0 then 0 else 2^52

/-- The value without its fractional part. -/
def truncated (bits : UInt64) : ℤ :=
  let magnitude : ℕ := significand bits * 2^scale bits / 2^1075
  if negative bits then -magnitude else magnitude

/-- `static_cast` to an unsigned type of this width. -/
def toUnsigned (width : ℕ) (bits : UInt64) : Option ℤ :=
  if 0 ≤ truncated bits ∧ truncated bits < 2^width then some (truncated bits) else none

/-- The double nearest to `n`, of two as near the even one. -/
def nearest (n : ℕ) : ℕ :=
  let unit := 2^(Nat.log2 n + 1 - 53)
  let q := n/unit
  let r := n % unit
  if unit < 2*r ∨ (2*r = unit ∧ q % 2 = 1) then (q+1)*unit else q*unit

/-- `d == static_cast<double>(n)`. -/
def equalsNat (bits : UInt64) (n : ℕ) : Bool :=
  significand bits * 2^scale bits % 2^1075 = 0 ∧ truncated bits = nearest n

end Binary64

inductive Json
  | null
  | boolean (b : Bool)
  | integer (z : ℤ)
  | double (bits : UInt64)
  | string (s : List UInt8)
  | array (elements : List Json)
  | object (fields : List (List UInt8 × Json))

namespace Json

variable {ε : Type}

/-- The bytes of a key as numbers, whose lexicographic order is the order of the keys. -/
def rank (key : List UInt8) : List ℕ := key.map UInt8.toNat

theorem rank_injective : Function.Injective rank :=
  List.map_injective_iff.mpr fun _ _ => UInt8.toNat.inj

/-- `fields[key] = value` in a map ordered by its keys. -/
def insertField {α : Type} (key : List UInt8) (value : α) :
    List (List UInt8 × α) → List (List UInt8 × α)
  | [] => [(key,value)]
  | f :: fields =>
    if f.1 = key then (key,value) :: fields
    else if rank key < rank f.1 then (key,value) :: f :: fields
    else f :: insertField key value fields

section Fields

variable {α : Type} {key : List UInt8} {value : α} {fields : List (List UInt8 × α)}

@[simp] theorem lookup_insertField_self :
    (insertField key value fields).lookup key = some value := by
  induction fields with
  | nil => simp [insertField]
  | cons f fields ih =>
    unfold insertField
    split_ifs with hkey hlt
    · simp
    · simp
    · have hne : (key == f.1) = false := by simpa using fun h => hkey h.symm
      rw [List.lookup_cons, hne]
      exact ih

theorem lookup_insertField_ne {other : List UInt8} (h : other ≠ key) :
    (insertField key value fields).lookup other = fields.lookup other := by
  have hother : (other == key) = false := by simpa using h
  induction fields with
  | nil => rw [insertField, List.lookup_cons, hother]
  | cons f fields ih =>
    obtain ⟨k,v⟩ := f
    unfold insertField
    split_ifs with hkey hlt
    · subst hkey
      simp only [List.lookup_cons, hother]
    · rw [List.lookup_cons, hother]
    · simp only [List.lookup_cons, ih]

theorem mem_insertField {f : List UInt8 × α} (h : f ∈ insertField key value fields) :
    f = (key,value) ∨ f ∈ fields := by
  induction fields with
  | nil => exact .inl (by simpa [insertField] using h)
  | cons g fields ih =>
    unfold insertField at h
    split_ifs at h with hkey hlt
    · exact (List.mem_cons.mp h).imp_right (List.mem_cons_of_mem g)
    · exact List.mem_cons.mp h
    · rcases List.mem_cons.mp h with rfl | h
      · exact .inr (List.mem_cons_self ..)
      · exact (ih h).imp_right (List.mem_cons_of_mem g)

/-- The fields stand in the order of their keys, each key once. -/
def Sorted (fields : List (List UInt8 × α)) : Prop :=
  fields.Pairwise fun f g => rank f.1 < rank g.1

theorem Sorted.insertField (h : Sorted fields) : Sorted (insertField key value fields) := by
  induction fields with
  | nil => exact List.pairwise_singleton _ _
  | cons f fields ih =>
    obtain ⟨hf,hrest⟩ := List.pairwise_cons.mp h
    unfold Json.insertField
    split_ifs with hkey hlt
    · subst hkey
      exact List.pairwise_cons.mpr ⟨hf,hrest⟩
    · refine List.pairwise_cons.mpr ⟨fun g hg => ?_,h⟩
      rcases List.mem_cons.mp hg with rfl | hg
      · exact hlt
      · exact hlt.trans (hf g hg)
    · refine List.pairwise_cons.mpr ⟨fun g hg => ?_,ih hrest⟩
      rcases mem_insertField hg with rfl | hg
      · exact lt_of_le_of_ne (not_lt.mp hlt) fun he => hkey (rank_injective he)
      · exact hf g hg

end Fields

/-- An object built by assigning its fields one after the other. -/
def record (fields : List (List UInt8 × Json)) : Json :=
  .object (fields.foldl (fun object f => insertField f.1 f.2 object) [])

/-- The value at a key of an object. -/
def field? (key : List UInt8) : Json → Option Json
  | .object fields => fields.lookup key
  | _ => none

/-- `j[key]` on a constant value. -/
def child (key : List UInt8) : Json → Except (Failure ε) Json
  | .object fields => (fields.lookup key).elim (.error .undefined) .ok
  | _ => .error .thrown

/-- `j[key]` on a value that may change: the value afterwards and the element. -/
def subscript (key : List UInt8) : Json → Except (Failure ε) (Json × Json)
  | .null => .ok (.object [(key,.null)],.null)
  | .object fields => .ok <|
    (fields.lookup key).elim (.object (insertField key .null fields),.null)
      fun value => (.object fields,value)
  | _ => .error .thrown

/-- Write through the reference that `j[key]` gave. -/
def put (j : Json) (key : List UInt8) (value : Json) : Json :=
  match j with
  | .object fields => .object (insertField key value fields)
  | j => j

/-- `j.get<uint64_t>()`. -/
def getUInt64 : Json → Except (Failure ε) UInt64
  | .integer z => .ok (UInt64.ofInt z)
  | .double bits => (Binary64.toUnsigned 64 bits).elim (.error .undefined) fun z =>
    .ok (UInt64.ofInt z)
  | _ => .error .thrown

/-- `j.get<uint16_t>()`, which takes a boolean too. -/
def getUInt16 : Json → Except (Failure ε) UInt16
  | .boolean b => .ok (if b then 1 else 0)
  | .integer z => .ok (UInt16.ofInt z)
  | .double bits => (Binary64.toUnsigned 16 bits).elim (.error .undefined) fun z =>
    .ok (UInt16.ofInt z)
  | _ => .error .thrown

/-- `j.get<std::string>()`. -/
def getString : Json → Except (Failure ε) (List UInt8)
  | .string s => .ok s
  | _ => .error .thrown

/-- `j == n` for an unsigned number: a negative integer is compared by its 64 bits. -/
def equalsUInt64 (n : UInt64) : Json → Bool
  | .integer z => UInt64.ofInt z = n
  | .double bits => Binary64.equalsNat bits n.toNat
  | _ => false

/-- What `for (const auto& element : j)` goes through. -/
def elements : Json → List Json
  | .null => []
  | .array elements => elements
  | .object fields => fields.map Prod.snd
  | j => [j]

/-- `j.push_back(value)`. -/
def pushBack (j value : Json) : Except (Failure ε) Json :=
  match j with
  | .null => .ok (.array [value])
  | .array elements => .ok (.array (elements ++ [value]))
  | _ => .error .thrown

end Json

/-- Erase the first element that fits from a sequence, whose end must not be erased. -/
def eraseFound {ε α : Type} (fits : α → Except (Failure ε) Bool) :
    List α → Except (Failure ε) (List α)
  | [] => .error .undefined
  | a :: l => do
    if ← fits a then return l
    return a :: (← eraseFound fits l)

namespace Json

variable {ε : Type}

/-- A value that is its own only element leaves null; its end cannot be erased. -/
def erasePrimitive (fits : Json → Except (Failure ε) Bool) (j : Json) :
    Except (Failure ε) Json := do
  if ← fits j then return .null else .error .thrown

/-- `j.erase(std::ranges::find_if(j, fits))`. -/
def eraseFirst (fits : Json → Except (Failure ε) Bool) : Json → Except (Failure ε) Json
  | .null => .error .thrown
  | .array elements => .array <$> eraseFound fits elements
  | .object fields => .object <$> eraseFound (fun f => fits f.2) fields
  | j => erasePrimitive fits j

/-- What an erasure does to the list: the first element that fits goes. -/
theorem eraseFound_eq_ok {α : Type} {fits : α → Except (Failure ε) Bool} {l l' : List α} :
    eraseFound fits l = .ok l' ↔ ∃ before a after, l = before ++ a :: after ∧
      l' = before ++ after ∧ (∀ b ∈ before, fits b = .ok false) ∧ fits a = .ok true := by
  induction l generalizing l' with
  | nil => simp [eraseFound]
  | cons c l ih =>
    unfold eraseFound
    rw [bind_eq_ok]
    constructor
    · rintro ⟨b,hb,h⟩
      cases b with
      | true =>
        obtain rfl : l = l' := by simpa [pure, Except.pure] using h
        exact ⟨[],c,l,rfl,rfl,by simp,hb⟩
      | false =>
        obtain ⟨rest,hrest,he⟩ := bind_eq_ok.mp h
        obtain rfl : c :: rest = l' := by simpa [pure, Except.pure] using he
        obtain ⟨before,a,after,rfl,rfl,hbefore,ha⟩ := ih.mp hrest
        exact ⟨c :: before,a,after,rfl,rfl,List.forall_mem_cons.mpr ⟨hb,hbefore⟩,ha⟩
    · rintro ⟨before,a,after,hl,rfl,hbefore,ha⟩
      cases before with
      | nil =>
        obtain ⟨rfl,rfl⟩ := List.cons.inj hl
        exact ⟨true,ha,rfl⟩
      | cons b before =>
        obtain ⟨rfl,rfl⟩ := List.cons.inj hl
        obtain ⟨hb,hbefore⟩ := List.forall_mem_cons.mp hbefore
        refine ⟨false,hb,bind_eq_ok.mpr ⟨before ++ after,ih.mpr ?_,rfl⟩⟩
        exact ⟨before,a,after,rfl,rfl,hbefore,ha⟩

theorem erasePrimitive_eq_ok {fits : Json → Except (Failure ε) Bool} {j j' : Json}
    (h : erasePrimitive fits j = .ok j') : j' = .null ∧ fits j = .ok true := by
  obtain ⟨b,hb,h⟩ := bind_eq_ok.mp h
  cases b with
  | true => exact ⟨(Except.ok.inj h).symm,hb⟩
  | false => simp at h

/-- An erasure takes the first element that fits out of what the loop goes through. -/
theorem elements_eraseFirst {fits : Json → Except (Failure ε) Bool} {j j' : Json}
    (h : j.eraseFirst fits = .ok j') : ∃ before a after, j.elements = before ++ a :: after ∧
      j'.elements = before ++ after ∧ (∀ b ∈ before, fits b = .ok false) ∧ fits a = .ok true := by
  have primitive {j j' : Json} (h : erasePrimitive fits j = .ok j') :
      ∃ before a after, [j] = before ++ a :: after ∧ j'.elements = before ++ after ∧
        (∀ b ∈ before, fits b = .ok false) ∧ fits a = .ok true := by
    obtain ⟨rfl,hfits⟩ := erasePrimitive_eq_ok h
    exact ⟨[],j,[],rfl,rfl,by simp,hfits⟩
  cases j with
  | null => simp [eraseFirst] at h
  | array elements =>
    obtain ⟨l,hl,rfl⟩ := map_eq_ok.mp h
    exact eraseFound_eq_ok.mp hl
  | object fields =>
    obtain ⟨l,hl,rfl⟩ := map_eq_ok.mp h
    obtain ⟨before,f,after,rfl,rfl,hbefore,hf⟩ := eraseFound_eq_ok.mp hl
    refine ⟨before.map Prod.snd,f.2,after.map Prod.snd,?_,?_,?_,hf⟩
    · simp [elements]
    · simp [elements]
    · exact fun b hb => by obtain ⟨g,hg,rfl⟩ := List.mem_map.mp hb; exact hbefore g hg
  | boolean b => exact primitive h
  | integer z => exact primitive h
  | double bits => exact primitive h
  | string s => exact primitive h

theorem elements_pushBack {value j j' : Json}
    (h : j.pushBack value = (.ok j' : Except (Failure ε) Json)) :
    j'.elements = j.elements ++ [value] := by
  cases j with
  | null => obtain rfl := Except.ok.inj h; rfl
  | array elements => obtain rfl := Except.ok.inj h; rfl
  | _ => simp [pushBack] at h

theorem codeless_child (key : List UInt8) (j : Json) :
    Codeless (j.child key : Except (Failure ε) Json) := by
  cases j with
  | object fields =>
    change Codeless ((fields.lookup key).elim _ _)
    cases fields.lookup key with
    | none => exact codeless_undefined
    | some value => exact codeless_ok value
  | _ => exact codeless_thrown

theorem codeless_subscript (key : List UInt8) (j : Json) :
    Codeless (j.subscript key : Except (Failure ε) (Json × Json)) := by
  cases j with
  | null => exact codeless_ok _
  | object fields => exact codeless_ok _
  | _ => exact codeless_thrown

theorem codeless_pushBack (j value : Json) :
    Codeless (j.pushBack value : Except (Failure ε) Json) := by
  cases j with
  | null => exact codeless_ok _
  | array elements => exact codeless_ok _
  | _ => exact codeless_thrown

theorem codeless_eraseFound {α : Type} {fits : α → Except (Failure ε) Bool}
    (hfits : ∀ a, Codeless (fits a)) (l : List α) : Codeless (eraseFound fits l) := by
  induction l with
  | nil => exact codeless_undefined
  | cons a l ih =>
    refine (hfits a).bind fun b => ?_
    cases b with
    | true => exact codeless_ok l
    | false => exact ih.bind fun rest => codeless_ok (a :: rest)

/-- An erasure gives an error code only if the test of an element does. -/
theorem codeless_eraseFirst {fits : Json → Except (Failure ε) Bool}
    (hfits : ∀ j, Codeless (fits j)) (j : Json) : Codeless (j.eraseFirst fits) := by
  have primitive (j : Json) : Codeless (erasePrimitive fits j) := by
    refine (hfits j).bind fun b => ?_
    cases b with
    | true => exact codeless_ok _
    | false => exact codeless_thrown
  cases j with
  | null => exact codeless_thrown
  | array elements => exact (codeless_eraseFound hfits elements).map
  | object fields => exact (codeless_eraseFound (fun f => hfits f.2) fields).map
  | boolean b => exact primitive _
  | integer z => exact primitive _
  | double bits => exact primitive _
  | string s => exact primitive _

theorem child_eq_ok {key : List UInt8} {j value : Json} :
    j.child key = (.ok value : Except (Failure ε) Json) ↔ j.field? key = some value := by
  cases j with
  | object fields => cases hv : fields.lookup key <;> simp [child, field?, hv]
  | _ => simp [child, field?]

/-- An integer that one of the two types of 64 bits has. -/
def InRange (z : ℤ) : Prop := -2^63 ≤ z ∧ z < 2^64

instance (z : ℤ) : Decidable (InRange z) := inferInstanceAs (Decidable (_ ∧ _))

/-- A value as a parser builds it: numbers in range, doubles finite, fields in order. -/
inductive Canonical : Json → Prop
  | null : Canonical .null
  | boolean (b : Bool) : Canonical (.boolean b)
  | integer {z : ℤ} (range : InRange z) : Canonical (.integer z)
  | double {bits : UInt64} (finite : Binary64.exponent bits < 2047) : Canonical (.double bits)
  | string (s : List UInt8) : Canonical (.string s)
  | array {elements : List Json} (all : ∀ j ∈ elements, Canonical j) : Canonical (.array elements)
  | object {fields : List (List UInt8 × Json)} (sorted : Sorted fields)
      (all : ∀ f ∈ fields, Canonical f.2) : Canonical (.object fields)

theorem Canonical.field? {key : List UInt8} {j value : Json} (h : j.Canonical)
    (hv : j.field? key = some value) : value.Canonical := by
  cases h with
  | object sorted all =>
    obtain ⟨before,after,rfl,_⟩ := List.lookup_eq_some_iff.mp hv
    exact all (key,value) (by simp)
  | _ => simp [Json.field?] at hv

/-- The canonical fields with one more, or with another value at a key. -/
theorem Canonical.insertField {key : List UInt8} {value : Json} {fields : List (List UInt8 × Json)}
    (h : (Json.object fields).Canonical) (hv : value.Canonical) :
    (Json.object (Json.insertField key value fields)).Canonical := by
  cases h with
  | object sorted all =>
    refine .object sorted.insertField fun f hf => ?_
    rcases mem_insertField hf with rfl | hf
    · exact hv
    · exact all f hf

/-- What a subscript leaves: the element is there now and no other field has changed. -/
theorem subscript_eq_ok {key : List UInt8} {j j' value : Json}
    (h : j.subscript key = (.ok (j',value) : Except (Failure ε) (Json × Json))) :
    j'.field? key = some value ∧ (∀ other, other ≠ key → j'.field? other = j.field? other) ∧
      (j.Canonical → j'.Canonical) := by
  cases j with
  | null =>
    obtain ⟨rfl,rfl⟩ := Prod.mk.inj (Except.ok.inj h)
    have hinsert : [(key,Json.null)] = Json.insertField key .null [] := rfl
    refine ⟨?_,fun other hother => ?_,fun _ => ?_⟩
    · simp [field?]
    · simp [field?,hinsert,lookup_insertField_ne hother]
    · exact .object (List.pairwise_singleton _ _) (by simpa using Canonical.null)
  | object fields =>
    cases hv : fields.lookup key with
    | some v =>
      obtain ⟨rfl,rfl⟩ : object fields = j' ∧ v = value := by simpa [subscript,hv] using h
      exact ⟨hv,fun _ _ => rfl,id⟩
    | none =>
      obtain ⟨rfl,rfl⟩ : object (Json.insertField key .null fields) = j' ∧ null = value := by
        simpa [subscript,hv] using h
      exact ⟨lookup_insertField_self,fun other hother => lookup_insertField_ne hother,
        fun hj => hj.insertField .null⟩
  | _ => simp [subscript] at h

theorem subscript_of_field? {key : List UInt8} {j value : Json} (h : j.field? key = some value) :
    j.subscript key = (.ok (j,value) : Except (Failure ε) (Json × Json)) := by
  cases j with
  | object fields =>
    have hlookup : fields.lookup key = some value := h
    simp [subscript, hlookup]
  | _ => simp [field?] at h

/-- What a write through a reference leaves. -/
theorem put_spec {key : List UInt8} {j old : Json} (value : Json)
    (h : j.field? key = some old) :
    (j.put key value).field? key = some value ∧
      (∀ other, other ≠ key → (j.put key value).field? other = j.field? other) ∧
      (j.Canonical → value.Canonical → (j.put key value).Canonical) := by
  cases j with
  | object fields =>
    exact ⟨lookup_insertField_self,fun other hother => lookup_insertField_ne hother,
      fun hj hv => hj.insertField hv⟩
  | _ => simp [field?] at h

theorem Canonical.pushBack {j j' value : Json} (h : j.Canonical) (hv : value.Canonical)
    (hpush : j.pushBack value = (.ok j' : Except (Failure ε) Json)) : j'.Canonical := by
  cases h with
  | null =>
    obtain rfl := Except.ok.inj hpush
    exact .array (by simpa using hv)
  | array all =>
    obtain rfl := Except.ok.inj hpush
    refine .array fun k hk => ?_
    rcases List.mem_append.mp hk with hk | hk
    · exact all k hk
    · exact List.mem_singleton.mp hk ▸ hv
  | _ => simp [Json.pushBack] at hpush

theorem Canonical.eraseFirst {fits : Json → Except (Failure ε) Bool} {j j' : Json}
    (h : j.Canonical) (herase : j.eraseFirst fits = .ok j') : j'.Canonical := by
  have primitive {j : Json} (h : erasePrimitive fits j = .ok j') : j'.Canonical := by
    rw [(erasePrimitive_eq_ok h).1]
    exact .null
  cases h with
  | null => simp [Json.eraseFirst] at herase
  | array all =>
    obtain ⟨l,hl,rfl⟩ := map_eq_ok.mp herase
    obtain ⟨before,a,after,rfl,rfl,_⟩ := eraseFound_eq_ok.mp hl
    exact .array fun k hk => all k (by simp at hk ⊢; tauto)
  | object sorted all =>
    obtain ⟨l,hl,rfl⟩ := map_eq_ok.mp herase
    obtain ⟨before,a,after,rfl,rfl,_⟩ := eraseFound_eq_ok.mp hl
    have hsub : (before ++ after).Sublist (before ++ a :: after) :=
      (List.sublist_cons_self a after).append_left before
    exact .object (sorted.sublist hsub) fun f hf => all f (hsub.subset hf)
  | boolean b => exact primitive herase
  | integer range => exact primitive herase
  | double finite => exact primitive herase
  | string s => exact primitive herase

/-- An object built from fields with different keys has exactly these fields. -/
theorem field?_record {key : List UInt8} {fields : List (List UInt8 × Json)}
    (h : (fields.map Prod.fst).Nodup) : (record fields).field? key = fields.lookup key := by
  have general (object : List (List UInt8 × Json)) :
      (fields.foldl (fun object f => insertField f.1 f.2 object) object).lookup key =
        (fields.lookup key).or (object.lookup key) := by
    induction fields generalizing object with
    | nil => simp
    | cons f fields ih =>
      obtain ⟨k,v⟩ := f
      obtain ⟨hk,hrest⟩ := List.nodup_cons.mp h
      rw [List.foldl_cons,ih hrest]
      by_cases hkey : key = k
      · subst hkey
        have hnone : fields.lookup key = none :=
          List.lookup_eq_none_iff.mpr fun f hf => by
            have hmem : f.1 ∈ fields.map Prod.fst := List.mem_map_of_mem hf
            simpa using fun he : key = f.1 => hk (he ▸ hmem)
        simp [hnone]
      · have hne : (key == k) = false := by simpa using hkey
        rw [lookup_insertField_ne hkey,List.lookup_cons,hne]
  exact (general []).trans (by simp)

theorem child_record {key : List UInt8} {value : Json} {fields : List (List UInt8 × Json)}
    (h : (fields.map Prod.fst).Nodup) (hv : fields.lookup key = some value) :
    (record fields).child key = (.ok value : Except (Failure ε) Json) :=
  child_eq_ok.mpr ((field?_record h).trans hv)

theorem canonical_record {fields : List (List UInt8 × Json)} (h : ∀ f ∈ fields, f.2.Canonical) :
    (record fields).Canonical := by
  have general (base : List (List UInt8 × Json)) (hbase : (object base).Canonical) :
      (object (fields.foldl (fun object f => insertField f.1 f.2 object) base)).Canonical := by
    induction fields generalizing base with
    | nil => exact hbase
    | cons f fields ih =>
      obtain ⟨hf,hrest⟩ := List.forall_mem_cons.mp h
      exact ih hrest _ (hbase.insertField hf)
  exact general [] (.object .nil (by simp))

end Json

end Foskv.Generic
