import Mathlib.Algebra.Ring.Nat
import Mathlib.Data.List.Basic
import Mathlib.Data.List.Induction
import Mathlib.Data.Nat.Log
import Mathlib.Tactic.SplitIfs

/-! The proto3 wire format over byte lists: base-128 varints and the two kinds of field that
numbers, strings and nested messages use. What is written is read back. -/
namespace Foskv.Generic.Proto3

/-- Seven bits a byte, the lowest first, with the top bit set on every byte but the last. -/
def varintFrom : ℕ → ℕ → List UInt8
  | 0,n => [UInt8.ofNat n]
  | fuel+1,n =>
    if n < 128 then [UInt8.ofNat n]
    else UInt8.ofNat (n % 128 + 128) :: varintFrom fuel (n/128)

def varint (n : ℕ) : List UInt8 := varintFrom n n

def readVarint : List UInt8 → Option (ℕ × List UInt8)
  | [] => none
  | b::bs =>
    if b.toNat < 128 then some (b.toNat,bs)
    else (readVarint bs).map fun r => (b.toNat - 128 + 128*r.1,r.2)

theorem readVarint_varintFrom (fuel n : ℕ) (h : n ≤ fuel) (rest : List UInt8) :
    readVarint (varintFrom fuel n ++ rest) = some (n,rest) := by
  induction fuel generalizing n with
  | zero =>
    obtain rfl : n = 0 := by omega
    rfl
  | succ fuel ih =>
    by_cases hn : n < 128
    · have hb : (UInt8.ofNat n).toNat = n := by simp only [UInt8.toNat_ofNat']; omega
      simp [varintFrom, hn, readVarint, hb]
    · have hb : (UInt8.ofNat (n % 128 + 128)).toNat = n % 128 + 128 := by
        simp only [UInt8.toNat_ofNat']
        omega
      have hd := ih (n/128) (by omega)
      simp only [varintFrom, if_neg hn, List.cons_append, readVarint, hb, hd]
      rw [if_neg (by omega)]
      simp only [Option.map_some]
      congr 2
      omega

@[simp] theorem readVarint_varint (n : ℕ) (rest : List UInt8) :
    readVarint (varint n ++ rest) = some (n,rest) :=
  readVarint_varintFrom n n (Nat.le_refl n) rest

theorem varint_ne_nil (n : ℕ) : varint n ≠ [] := by
  cases n with
  | zero => simp [varint, varintFrom]
  | succ n =>
    simp only [varint, varintFrom]
    split_ifs <;> simp

/-- The number of base-128 digits. -/
def varintSize (n : ℕ) : ℕ := Nat.log 128 n + 1

theorem length_varintFrom (fuel n : ℕ) (h : n ≤ fuel) :
    (varintFrom fuel n).length = varintSize n := by
  induction fuel generalizing n with
  | zero =>
    obtain rfl : n = 0 := by omega
    rfl
  | succ fuel ih =>
    rw [varintFrom]
    split_ifs with hn
    · rw [varintSize, Nat.log_of_lt hn]
      rfl
    · have hlog : Nat.log 128 n = Nat.log 128 (n/128) + 1 :=
        Nat.log_of_one_lt_of_le (by decide) (by omega)
      rw [List.length_cons, ih _ (by omega), varintSize, varintSize, hlog]

@[simp] theorem length_varint (n : ℕ) : (varint n).length = varintSize n :=
  length_varintFrom n n (Nat.le_refl n)

theorem varintSize_le {n k : ℕ} (hk : 0 < k) (h : n < 128^k) : varintSize n ≤ k :=
  Nat.log_lt_of_lt_pow' hk.ne' h

/-- A value with its wire type; the fields of a group stand there as they are written. -/
inductive FieldValue
  | varint (n : ℕ)
  | fixed64 (bs : List UInt8)
  | bytes (bs : List UInt8)
  | group (bs : List UInt8)
  | fixed32 (bs : List UInt8)
  deriving DecidableEq, Repr

/-- A field number with its value. -/
abbrev Field := ℕ × FieldValue

def tag (number wireType : ℕ) : List UInt8 := varint (8*number + wireType)

def writeField : Field → List UInt8
  | (number,.varint n) => tag number 0 ++ varint n
  | (number,.fixed64 bs) => tag number 1 ++ bs
  | (number,.bytes bs) => tag number 2 ++ (varint bs.length ++ bs)
  | (number,.group bs) => tag number 3 ++ (bs ++ tag number 4)
  | (number,.fixed32 bs) => tag number 5 ++ bs

def writeFields (fields : List Field) : List UInt8 := (fields.map writeField).flatten

@[simp] theorem writeFields_nil : writeFields [] = [] := rfl

@[simp] theorem writeFields_cons (field : Field) (fields : List Field) :
    writeFields (field::fields) = writeField field ++ writeFields fields := rfl

@[simp] theorem writeFields_append (fields fields' : List Field) :
    writeFields (fields ++ fields') = writeFields fields ++ writeFields fields' := by
  simp [writeFields]

/-- A varint of at most `limit` bytes, of which the lowest `bits` bits are kept. -/
def readLimited (limit bits : ℕ) (bs : List UInt8) : Option (ℕ × List UInt8) := do
  let (n,rest) ← readVarint bs
  if bs.length ≤ rest.length + limit then some (n % 2^bits,rest) else none

/-- A number has 64 bits, unless numbers are not limited. -/
def readNumber (limited : Bool) (bs : List UInt8) : Option (ℕ × List UInt8) :=
  if limited then readLimited 10 64 bs else readVarint bs

/-- A tag has 32 bits, and no field has the number zero. -/
def readTag (bs : List UInt8) : Option ((ℕ × ℕ) × List UInt8) := do
  let (n,rest) ← readLimited 5 32 bs
  if n/8 = 0 then none else some ((n/8,n % 8),rest)

def readChunk (length : ℕ) (bs : List UInt8) : Option (List UInt8 × List UInt8) :=
  if length ≤ bs.length then some (bs.take length,bs.drop length) else none

/-- A length takes at most five bytes, or as many as it needs. -/
def readString (bs : List UInt8) : Option (List UInt8 × List UInt8) := do
  let (length,rest) ← readVarint bs
  if bs.length ≤ rest.length + max 5 (varintSize length) then readChunk length rest else none

def readValue (limited : Bool) (bs : List UInt8) : ℕ → Option (FieldValue × List UInt8)
  | 0 => (readNumber limited bs).map fun r => (.varint r.1,r.2)
  | 1 => (readChunk 8 bs).map fun r => (.fixed64 r.1,r.2)
  | 2 => (readString bs).map fun r => (.bytes r.1,r.2)
  | 5 => (readChunk 4 bs).map fun r => (.fixed32 r.1,r.2)
  | _ => none

/-- The fields up to the end of the input, or up to the end tag of the group that is open. -/
def readFieldsFrom (limited : Bool) :
    ℕ → Option ℕ → List UInt8 → Option (List Field × List UInt8)
  | 0,_,_ => none
  | fuel+1,group,bs =>
    if group = none ∧ bs = [] then some ([],[])
    else do
      let ((number,wireType),bs) ← readTag bs
      if wireType = 4 then (if group = some number then some ([],bs) else none)
      else
        let (value,bs) ←
          if wireType = 3 then
            (readFieldsFrom limited fuel (some number) bs).map fun r =>
              (FieldValue.group (writeFields r.1),r.2)
          else readValue limited bs wireType
        let (fields,bs) ← readFieldsFrom limited fuel group bs
        return ((number,value)::fields,bs)

/-- Every field and every end of a group takes a byte, so the length bounds the steps. -/
def readFields (limited : Bool) (bs : List UInt8) : Option (List Field) :=
  (readFieldsFrom limited (bs.length + 1) none bs).map Prod.fst

def IsNumber (number : ℕ) : Prop := 0 < number ∧ number < 2^29

instance (number : ℕ) : Decidable (IsNumber number) := inferInstanceAs (Decidable (_ ∧ _))

/-- The fields that reading can give. -/
inductive Canonical (limited : Bool) : Field → Prop
  | varint {number n : ℕ} : IsNumber number → (limited = true → n < 2^64) →
      Canonical limited (number,.varint n)
  | fixed64 {number : ℕ} {bs : List UInt8} : IsNumber number → bs.length = 8 →
      Canonical limited (number,.fixed64 bs)
  | bytes {number : ℕ} {bs : List UInt8} : IsNumber number → Canonical limited (number,.bytes bs)
  | group {number : ℕ} {fields : List Field} : IsNumber number →
      (∀ field ∈ fields, Canonical limited field) →
      Canonical limited (number,.group (writeFields fields))
  | fixed32 {number : ℕ} {bs : List UInt8} : IsNumber number → bs.length = 4 →
      Canonical limited (number,.fixed32 bs)

section RoundTrip
variable {limited : Bool} {number wireType : ℕ} {bs rest : List UInt8}

theorem readLimited_varint {limit bits n : ℕ} (hbits : n < 2^bits)
    (hlimit : varintSize n ≤ limit) :
    readLimited limit bits (varint n ++ rest) = some (n,rest) := by
  have hlength : (varint n ++ rest).length ≤ rest.length + limit := by
    rw [List.length_append, length_varint]
    omega
  simp only [readLimited, readVarint_varint, Option.bind_eq_bind, Option.bind_some,
    if_pos hlength, Nat.mod_eq_of_lt hbits]

theorem readNumber_varint {n : ℕ} (h : limited = true → n < 2^64) :
    readNumber limited (varint n ++ rest) = some (n,rest) := by
  unfold readNumber
  split_ifs with hlimited
  · have hn := h hlimited
    exact readLimited_varint hn (varintSize_le (by decide) (hn.trans (by decide)))
  · exact readVarint_varint n rest

theorem readTag_tag (hnumber : IsNumber number) (htype : wireType < 8) :
    readTag (tag number wireType ++ rest) = some ((number,wireType),rest) := by
  obtain ⟨hpos,hlt⟩ := hnumber
  have hbits : 8*number + wireType < 2^32 := by omega
  have hread := @readLimited_varint rest 5 32 _ hbits
    (varintSize_le (by decide) (hbits.trans (by decide)))
  have hdiv : (8*number + wireType)/8 = number := by omega
  have hmod : (8*number + wireType) % 8 = wireType := by omega
  simp only [readTag, tag, hread, Option.bind_eq_bind, Option.bind_some, hdiv, hmod,
    if_neg hpos.ne']

theorem readChunk_append {length : ℕ} (h : bs.length = length) :
    readChunk length (bs ++ rest) = some (bs,rest) := by
  subst h
  simp [readChunk]

theorem readString_append :
    readString (varint bs.length ++ (bs ++ rest)) = some (bs,rest) := by
  have hlength : (varint bs.length ++ (bs ++ rest)).length ≤
      (bs ++ rest).length + max 5 (varintSize bs.length) := by
    rw [List.length_append, length_varint]
    omega
  simp only [readString, readVarint_varint, Option.bind_eq_bind, Option.bind_some,
    if_pos hlength, readChunk_append]

theorem tag_ne_nil (number wireType : ℕ) : tag number wireType ≠ [] := varint_ne_nil _

theorem writeField_ne_nil (field : Field) : writeField field ≠ [] := by
  obtain ⟨number,value⟩ := field
  cases value <;> simp [writeField, tag_ne_nil]

/-- One field is read in front of the others. -/
def ReadsBack (limited : Bool) (field : Field) : Prop :=
  ∀ fuel group rest, (writeField field).length ≤ fuel →
    readFieldsFrom limited (fuel+1) group (writeField field ++ rest) =
      (readFieldsFrom limited fuel group rest).map fun r => (field::r.1,r.2)

/-- A value whose reading gives it back, under its own wire type, is read with its field. -/
theorem ReadsBack.of_value {value : FieldValue} {body : List UInt8} (wireType : ℕ)
    (hnumber : IsNumber number) (htype : wireType < 8) (hgroup : wireType ≠ 3 ∧ wireType ≠ 4)
    (hwrite : writeField (number,value) = tag number wireType ++ body)
    (hread : ∀ rest, readValue limited (body ++ rest) wireType = some (value,rest)) :
    ReadsBack limited (number,value) := by
  intro fuel group rest _
  rw [hwrite, List.append_assoc, readFieldsFrom, if_neg (by simp [tag_ne_nil])]
  simp only [readTag_tag hnumber htype, Option.bind_eq_bind, Option.bind_some, if_neg hgroup.1,
    if_neg hgroup.2, hread]
  cases readFieldsFrom limited fuel group rest <;> rfl

/-- Fields that are read one by one are read as a list, whatever ends it. -/
theorem readFieldsFrom_writeFields {fields : List Field} {group : Option ℕ}
    (hfields : ∀ field ∈ fields, ReadsBack limited field) {ending : List UInt8}
    (hend : ∀ fuel, readFieldsFrom limited (fuel+1) group (ending ++ rest) = some ([],rest))
    {fuel : ℕ} (hfuel : (writeFields fields).length ≤ fuel) :
    readFieldsFrom limited (fuel+1) group (writeFields fields ++ (ending ++ rest)) =
      some (fields,rest) := by
  induction fields generalizing fuel with
  | nil => exact hend fuel
  | cons field fields ih =>
    have hpos := List.length_pos_iff.mpr (writeField_ne_nil field)
    rw [writeFields_cons, List.length_append] at hfuel
    obtain ⟨fuel,rfl⟩ : ∃ k, fuel = k+1 := ⟨fuel - 1,by omega⟩
    rw [writeFields_cons, List.append_assoc,
      hfields field List.mem_cons_self _ group _ (by omega),
      ih (fun f hf => hfields f (List.mem_cons_of_mem _ hf)) (by omega)]
    rfl

theorem readFieldsFrom_end (hnumber : IsNumber number) (fuel : ℕ) :
    readFieldsFrom limited (fuel+1) (some number) (tag number 4 ++ rest) = some ([],rest) := by
  rw [readFieldsFrom, if_neg (by simp)]
  simp only [readTag_tag hnumber (by decide : 4 < 8), Option.bind_eq_bind, Option.bind_some,
    if_true]

/-- Induction on the nesting of groups. -/
theorem Canonical.readsBack {field : Field} (h : Canonical limited field) :
    ReadsBack limited field := by
  induction h with
  | varint hnumber hn =>
    refine .of_value 0 hnumber (by decide) (by decide) rfl fun rest => ?_
    rw [readValue, readNumber_varint hn]
    rfl
  | fixed64 hnumber hlength =>
    refine .of_value 1 hnumber (by decide) (by decide) rfl fun rest => ?_
    rw [readValue, readChunk_append hlength]
    rfl
  | bytes hnumber =>
    refine .of_value 2 hnumber (by decide) (by decide) rfl fun rest => ?_
    rw [readValue, List.append_assoc, readString_append]
    rfl
  | fixed32 hnumber hlength =>
    refine .of_value 5 hnumber (by decide) (by decide) rfl fun rest => ?_
    rw [readValue, readChunk_append hlength]
    rfl
  | @group number fields hnumber _ ih =>
    intro fuel group rest hfuel
    have hpos := List.length_pos_iff.mpr (tag_ne_nil number 3)
    simp only [writeField, List.length_append] at hfuel
    obtain ⟨fuel,rfl⟩ : ∃ k, fuel = k+1 := ⟨fuel - 1,by omega⟩
    have hread : readFieldsFrom limited (fuel+1) (some number)
        (writeFields fields ++ (tag number 4 ++ rest)) = some (fields,rest) :=
      readFieldsFrom_writeFields ih (readFieldsFrom_end hnumber) (by omega)
    rw [writeField, List.append_assoc, List.append_assoc, readFieldsFrom,
      if_neg (by simp [tag_ne_nil])]
    simp only [readTag_tag hnumber (by decide : 3 < 8), Option.bind_eq_bind, Option.bind_some,
      hread, if_true, Option.map_some, if_neg (by decide : 3 ≠ 4)]
    cases readFieldsFrom limited (fuel+1) group rest <;> rfl

/-- Reading undoes writing. -/
theorem readFields_writeFields {fields : List Field}
    (h : ∀ field ∈ fields, Canonical limited field) :
    readFields limited (writeFields fields) = some fields := by
  have hread : readFieldsFrom limited ((writeFields fields).length + 1) none
      (writeFields fields ++ ([] ++ [])) = some (fields,[]) :=
    readFieldsFrom_writeFields (fun field hfield => (h field hfield).readsBack)
      (fun fuel => by rw [readFieldsFrom, List.append_nil, if_pos ⟨rfl,rfl⟩]) (Nat.le_refl _)
  rw [List.append_nil, List.append_nil] at hread
  rw [readFields, hread]
  rfl

theorem readTag_number {bs rest : List UInt8} (h : readTag bs = some ((number,wireType),rest)) :
    IsNumber number := by
  obtain ⟨⟨n,rest'⟩,hread,hn⟩ := Option.bind_eq_some_iff.mp h
  obtain ⟨⟨n',rest''⟩,-,hn'⟩ := Option.bind_eq_some_iff.mp hread
  dsimp only at hn hn'
  split_ifs at hn hn' with hzero
  cases hn
  cases hn'
  have hlt := Nat.mod_lt n' (show 0 < 2^32 by decide)
  exact ⟨Nat.pos_of_ne_zero hzero,by omega⟩

theorem readNumber_lt {n : ℕ} (h : readNumber limited bs = some (n,rest))
    (hlimited : limited = true) : n < 2^64 := by
  rw [readNumber, if_pos hlimited] at h
  obtain ⟨⟨n',rest'⟩,-,hn⟩ := Option.bind_eq_some_iff.mp h
  dsimp only at hn
  split_ifs at hn
  cases hn
  exact Nat.mod_lt _ (by decide)

theorem readChunk_length {length : ℕ} {chunk : List UInt8}
    (h : readChunk length bs = some (chunk,rest)) : chunk.length = length := by
  unfold readChunk at h
  split_ifs at h with hle
  cases h
  exact List.length_take_of_le hle

theorem readValue_canonical {value : FieldValue} (hnumber : IsNumber number)
    (h : readValue limited bs wireType = some (value,rest)) :
    Canonical limited (number,value) := by
  unfold readValue at h
  split at h
  · obtain ⟨⟨n,rest'⟩,hread,heq⟩ := Option.map_eq_some_iff.mp h
    cases heq
    exact .varint hnumber (readNumber_lt hread)
  · obtain ⟨⟨chunk,rest'⟩,hread,heq⟩ := Option.map_eq_some_iff.mp h
    cases heq
    exact .fixed64 hnumber (readChunk_length hread)
  · obtain ⟨⟨chunk,rest'⟩,hread,heq⟩ := Option.map_eq_some_iff.mp h
    cases heq
    exact .bytes hnumber
  · obtain ⟨⟨chunk,rest'⟩,hread,heq⟩ := Option.map_eq_some_iff.mp h
    cases heq
    exact .fixed32 hnumber (readChunk_length hread)
  · cases h

theorem readFieldsFrom_canonical {fuel : ℕ} {group : Option ℕ} {fields : List Field}
    (h : readFieldsFrom limited fuel group bs = some (fields,rest)) :
    ∀ field ∈ fields, Canonical limited field := by
  induction fuel generalizing group bs fields rest with
  | zero => cases h
  | succ fuel ih =>
    rw [readFieldsFrom] at h
    split_ifs at h with hdone
    · cases h
      simp
    obtain ⟨⟨⟨number,wireType⟩,bs₁⟩,htag,h⟩ := Option.bind_eq_some_iff.mp h
    have hnumber := readTag_number htag
    dsimp only at h
    split_ifs at h with hend hopen
    · cases h
      simp
    all_goals
      obtain ⟨⟨value,bs₂⟩,hvalue,h⟩ := Option.bind_eq_some_iff.mp h
      obtain ⟨⟨fields',bs₃⟩,hfields,h⟩ := Option.bind_eq_some_iff.mp h
      cases h
      refine List.forall_mem_cons.mpr ⟨?_,ih hfields⟩
    · obtain ⟨⟨content,bs₄⟩,hcontent,heq⟩ := Option.map_eq_some_iff.mp hvalue
      cases heq
      exact .group hnumber (ih hcontent)
    · exact readValue_canonical hnumber hvalue

/-- What is read can be written and read again. -/
theorem readFields_canonical {fields : List Field} (h : readFields limited bs = some fields) :
    ∀ field ∈ fields, Canonical limited field := by
  obtain ⟨⟨fields',rest⟩,hread,heq⟩ := Option.map_eq_some_iff.mp h
  cases heq
  exact readFieldsFrom_canonical hread

end RoundTrip

/-- A number is only written when it is not zero. -/
def numberField (number n : ℕ) : List Field := if n = 0 then [] else [(number,.varint n)]

/-- A string is only written when it is not empty. -/
def bytesField (number : ℕ) (bs : List UInt8) : List Field :=
  if bs = [] then [] else [(number,.bytes bs)]

/-- The last number written under a field number, or zero. -/
def number (number : ℕ) (fields : List Field) : ℕ :=
  fields.foldl (fun old field =>
    match field with | (k,.varint n) => if k = number then n else old | _ => old) 0

/-- The last string written under a field number, or the empty one. -/
def string (number : ℕ) (fields : List Field) : List UInt8 :=
  fields.foldl (fun old field =>
    match field with | (k,.bytes bs) => if k = number then bs else old | _ => old) []

section Reading
variable {k j n : ℕ} {bs : List UInt8}

theorem number_append_varint (fields : List Field) :
    number k (fields ++ [(j,.varint n)]) = if j = k then n else number k fields := by
  simp [number]

theorem number_append_bytes (fields : List Field) :
    number k (fields ++ [(j,.bytes bs)]) = number k fields := by
  simp [number]

theorem string_append_varint (fields : List Field) :
    string k (fields ++ [(j,.varint n)]) = string k fields := by
  simp [string]

theorem string_append_bytes (fields : List Field) :
    string k (fields ++ [(j,.bytes bs)]) = if j = k then bs else string k fields := by
  simp [string]

theorem string_append_other {field : Field} (h : ∀ bs, field ≠ (k,.bytes bs))
    (fields : List Field) : string k (fields ++ [field]) = string k fields := by
  obtain ⟨j,value⟩ := field
  cases value with
  | bytes bs =>
    have hj : j ≠ k := by
      rintro rfl
      exact h bs rfl
    rw [string_append_bytes, if_neg hj]
  | varint _ | fixed64 _ | group _ | fixed32 _ => simp [string]

/-- A number is read where it is the only one written under its field number. -/
theorem number_append_self {fields : List Field} (h : number k fields = 0) :
    number k (fields ++ numberField k n) = n := by
  rw [numberField]
  split_ifs with hn
  · rw [List.append_nil, h, hn]
  · rw [number_append_varint, if_pos rfl]

theorem number_append_numberField (h : j ≠ k) (fields : List Field) :
    number k (fields ++ numberField j n) = number k fields := by
  rw [numberField]
  split_ifs
  · rw [List.append_nil]
  · rw [number_append_varint, if_neg h]

theorem string_append_numberField (fields : List Field) :
    string k (fields ++ numberField j n) = string k fields := by
  rw [numberField]
  split_ifs
  · rw [List.append_nil]
  · rw [string_append_varint]

theorem number_numberField_self : number k (numberField k n) = n :=
  @number_append_self k n [] rfl

theorem number_numberField (h : j ≠ k) : number k (numberField j n) = 0 :=
  number_append_numberField h []

/-- Messages of a repeated field are no numbers. -/
theorem number_append_messages (fields : List Field) (messages : List (List UInt8)) :
    number k (fields ++ messages.map fun bs => (j,.bytes bs)) = number k fields := by
  induction messages using List.reverseRecOn with
  | nil => rw [List.map_nil, List.append_nil]
  | append_singleton messages bs ih =>
    rw [List.map_append, ← List.append_assoc, List.map_singleton, number_append_bytes, ih]

/-- The messages written under a field number. -/
def messages (k : ℕ) (fields : List Field) : List (List UInt8) :=
  fields.filterMap fun
    | (j,.bytes bs) => if j = k then some bs else none
    | _ => none

theorem messages_append (fields fields' : List Field) :
    messages k (fields ++ fields') = messages k fields ++ messages k fields' :=
  List.filterMap_append

theorem messages_numberField : messages k (numberField j n) = [] := by
  rw [numberField]
  split_ifs <;> rfl

theorem messages_map (bss : List (List UInt8)) :
    messages k (bss.map fun bs => (k,.bytes bs)) = bss := by
  induction bss with
  | nil => rfl
  | cons bs bss ih =>
    have hhead : messages k ((k,.bytes bs) :: bss.map fun bs => (k,.bytes bs)) =
        bs :: messages k (bss.map fun bs => (k,.bytes bs)) :=
      List.filterMap_cons_some (if_pos rfl)
    rw [List.map_cons, hhead, ih]

end Reading

section Sizes

/-- The size of a string or message field under a number below 16. -/
def messageSize (length : ℕ) : ℕ := 1 + varintSize length + length

def bytesSize (length : ℕ) : ℕ := if length = 0 then 0 else messageSize length

def numberSize (n : ℕ) : ℕ := if n = 0 then 0 else 1 + varintSize n

theorem length_tag (number wireType : ℕ) :
    (tag number wireType).length = varintSize (8*number + wireType) := length_varint _

/-- The size of any field from the lengths in it. -/
def fieldSize : Field → ℕ
  | (number,.varint n) => varintSize (8*number) + varintSize n
  | (number,.fixed64 bs) => varintSize (8*number + 1) + bs.length
  | (number,.bytes bs) => varintSize (8*number + 2) + (varintSize bs.length + bs.length)
  | (number,.group bs) => varintSize (8*number + 3) + (bs.length + varintSize (8*number + 4))
  | (number,.fixed32 bs) => varintSize (8*number + 5) + bs.length

theorem length_writeField (field : Field) : (writeField field).length = fieldSize field := by
  obtain ⟨number,value⟩ := field
  cases value <;> simp [writeField, fieldSize, length_tag]

theorem length_writeFields (fields : List Field) :
    (writeFields fields).length = (fields.map fieldSize).sum := by
  induction fields with
  | nil => rfl
  | cons field fields ih =>
    rw [writeFields_cons, List.length_append, ih, length_writeField, List.map_cons, List.sum_cons]

variable {number : ℕ} (hnumber : number < 16)
include hnumber

theorem length_tag_short {wireType : ℕ} (htype : wireType < 8) :
    (tag number wireType).length = 1 := by
  rw [length_tag, varintSize, Nat.log_of_lt (by omega)]

theorem length_writeField_bytes (bs : List UInt8) :
    (writeField (number,.bytes bs)).length = messageSize bs.length := by
  have htag := length_tag_short hnumber (by decide : 2 < 8)
  simp only [writeField, List.length_append, length_varint, htag, messageSize]
  omega

theorem length_writeFields_message (bs : List UInt8) :
    (writeFields [(number,.bytes bs)]).length = messageSize bs.length := by
  simpa using length_writeField_bytes hnumber bs

theorem length_writeFields_bytesField (bs : List UInt8) :
    (writeFields (bytesField number bs)).length = bytesSize bs.length := by
  by_cases h : bs = []
  · simp [bytesField, bytesSize, h]
  · simp [bytesField, bytesSize, h, length_writeField_bytes hnumber]

theorem length_writeField_varint (n : ℕ) :
    (writeField (number,.varint n)).length = 1 + varintSize n := by
  have htag := length_tag_short hnumber (by decide : 0 < 8)
  simp [writeField, htag]

theorem length_writeFields_numberField (n : ℕ) :
    (writeFields (numberField number n)).length = numberSize n := by
  by_cases h : n = 0
  · simp [numberField, numberSize, h]
  · simp [numberField, numberSize, h, length_writeField_varint hnumber]

theorem length_writeFields_messages (messages : List (List UInt8)) :
    (writeFields (messages.map fun bs => (number,.bytes bs))).length =
      (messages.map fun bs => messageSize bs.length).sum := by
  induction messages with
  | nil => rfl
  | cons bs messages ih =>
    rw [List.map_cons, List.map_cons, List.sum_cons, ← ih, ← length_writeField_bytes hnumber,
      writeFields_cons, List.length_append]

end Sizes

section Unknown
variable {known : List ℕ}

/-- A string under one of the numbers. -/
def IsString (numbers : List ℕ) : Field → Bool
  | (number,.bytes _) => decide (number ∈ numbers)
  | _ => false

/-- What a parsed message keeps without knowing it, when its own fields are the strings under
`known`. -/
structure UnknownFields (known : List ℕ) where
  fields : List Field
  canonical : ∀ field ∈ fields, Canonical true field
  unknown : ∀ field ∈ fields, IsString known field = false
  deriving DecidableEq, Repr

namespace UnknownFields

instance : EmptyCollection (UnknownFields known) := ⟨⟨[],by simp,by simp⟩⟩

/-- The unknown ones among the fields that were read. -/
def of (fields : List Field) (h : ∀ field ∈ fields, Canonical true field) :
    UnknownFields known where
  fields := fields.filter fun field => !IsString known field
  canonical field hfield := h field (List.mem_of_mem_filter hfield)
  unknown field hfield := by simpa using (List.mem_filter.mp hfield).2

theorem of_append (u : UnknownFields known) {own : List Field}
    (hown : ∀ field ∈ own, IsString known field = true)
    (h : ∀ field ∈ own ++ u.fields, Canonical true field) : of (own ++ u.fields) h = u := by
  obtain ⟨fields,canonical,unknown⟩ := u
  have hnone : own.filter (fun field => !IsString known field) = [] :=
    List.filter_eq_nil_iff.mpr fun field hfield => by simp [hown field hfield]
  have hall : fields.filter (fun field => !IsString known field) = fields :=
    List.filter_eq_self.mpr fun field hfield => by simp [unknown field hfield]
  simp only [of, List.filter_append, hnone, hall, List.nil_append]

theorem string_append (u : UnknownFields known) {k : ℕ} (hk : k ∈ known) (own : List Field) :
    string k (own ++ u.fields) = string k own := by
  obtain ⟨fields,canonical,unknown⟩ := u
  change string k (own ++ fields) = string k own
  clear canonical
  induction fields using List.reverseRecOn with
  | nil => rw [List.append_nil]
  | append_singleton fields field ih =>
    rw [← List.append_assoc, string_append_other,
      ih fun f hf => unknown f (List.mem_append_left _ hf)]
    · rintro bs rfl
      have hfield := unknown _ (List.mem_append_right _ List.mem_cons_self)
      simp [IsString, hk] at hfield

/-- The size of what is kept. -/
def size (u : UnknownFields known) : ℕ := (u.fields.map fieldSize).sum

theorem length_writeFields (u : UnknownFields known) : (writeFields u.fields).length = u.size :=
  Proto3.length_writeFields u.fields

end UnknownFields
end Unknown

end Foskv.Generic.Proto3
