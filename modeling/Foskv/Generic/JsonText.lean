import Foskv.Generic.Json
import Mathlib.Data.List.Forall2
import Mathlib.Data.Nat.Digits.Defs

/-! JSON text with an indentation of four blanks, and a reader that undoes it. Doubles and strings
with control characters are not printed. -/
namespace Foskv.Generic.Json

section Numbers

def isDigit (b : UInt8) : Bool := 48 ≤ b ∧ b ≤ 57

/-- The decimal digits of a number, the most significant first. -/
def decimal (n : ℕ) : List UInt8 :=
  if n = 0 then [48] else (Nat.digits 10 n).reverse.map fun k => UInt8.ofNat (48+k)

/-- The number at the start of a text, and what follows it. -/
def readDecimal (s : List UInt8) : Option (ℕ × List UInt8) :=
  match s.takeWhile isDigit with
  | [] => none
  | digits => some (digits.foldl (fun n b => 10*n + (b.toNat - 48)) 0,s.dropWhile isDigit)

/-- No digit follows a number. -/
def Delimited (rest : List UInt8) : Prop := ∀ b ∈ rest.head?, isDigit b = false

theorem isDigit_decimal {n : ℕ} : ∀ b ∈ decimal n, isDigit b = true := by
  have digit : ∀ k < 10, isDigit (UInt8.ofNat (48+k)) = true := by decide
  unfold decimal
  split_ifs with hn
  · simp only [List.mem_singleton, forall_eq]
    decide
  · intro b hb
    obtain ⟨k,hk,rfl⟩ := List.mem_map.mp hb
    exact digit k (Nat.digits_lt_base (by decide) (List.mem_reverse.mp hk))

theorem decimal_ne_nil {n : ℕ} : decimal n ≠ [] := by
  unfold decimal
  split_ifs with hn
  · simp
  · simpa using Nat.digits_ne_nil_iff_ne_zero.mpr hn

theorem foldl_decimal (n : ℕ) :
    (decimal n).foldl (fun n b => 10*n + (b.toNat - 48)) 0 = n := by
  have digit : ∀ k < 10, (UInt8.ofNat (48+k)).toNat - 48 = k := by decide
  unfold decimal
  split_ifs with hn
  · subst hn
    rfl
  · rw [List.foldl_map, List.foldl_reverse]
    conv_rhs => rw [← Nat.ofDigits_digits 10 n, Nat.ofDigits_eq_foldr]
    have hall : ∀ k ∈ Nat.digits 10 n, k < 10 := fun k hk => Nat.digits_lt_base (by decide) hk
    generalize Nat.digits 10 n = ks at hall
    induction ks with
    | nil => rfl
    | cons k ks ih =>
      obtain ⟨hk,hks⟩ := List.forall_mem_cons.mp hall
      simp only [List.foldr_cons, digit k hk, ih hks, Nat.cast_id]
      exact Nat.add_comm _ _

theorem readDecimal_decimal {n : ℕ} {rest : List UInt8} (h : Delimited rest) :
    readDecimal (decimal n ++ rest) = some (n,rest) := by
  have htake : rest.takeWhile isDigit = [] := by
    cases rest with
    | nil => rfl
    | cons b rest => simp [h b rfl]
  have hdrop : rest.dropWhile isDigit = rest := by
    cases rest with
    | nil => rfl
    | cons b rest => simp [h b rfl]
  have hdigits : (decimal n ++ rest).takeWhile isDigit = decimal n := by
    rw [List.takeWhile_append_of_pos isDigit_decimal, htake, List.append_nil]
  unfold readDecimal
  rw [hdigits, List.dropWhile_append_of_pos isDigit_decimal, hdrop]
  split
  · next hnil => exact absurd hnil decimal_ne_nil
  · rw [foldl_decimal]

/-- An integer, unless it is too large for both types of 64 bits. -/
def inRange (z : ℤ) : Option Json := if InRange z then some (.integer z) else none

end Numbers

section Strings

def escape (b : UInt8) : List UInt8 := if b = 34 ∨ b = 92 then [92,b] else [b]

/-- A string between quotes, unless it has a control character. -/
def quoted (s : List UInt8) : Option (List UInt8) :=
  if s.all (32 ≤ ·) then some (34 :: (s.flatMap escape ++ [34])) else none

/-- The rest of a string after its opening quote; a byte after a backslash is taken as it is. -/
def readString : Bool → List UInt8 → Option (List UInt8 × List UInt8)
  | _,[] => none
  | true,b :: s => (readString false s).map fun r => (b :: r.1,r.2)
  | false,b :: s =>
    if b = 34 then some ([],s)
    else if b = 92 then readString true s
    else (readString false s).map fun r => (b :: r.1,r.2)

theorem readString_flatMap (t rest : List UInt8) :
    readString false (t.flatMap escape ++ 34 :: rest) = some (t,rest) := by
  induction t with
  | nil => simp [readString]
  | cons b t ih =>
    rw [List.flatMap_cons, List.append_assoc, escape]
    split_ifs with hb
    · simp [readString, ih]
    · obtain ⟨hquote,hslash⟩ := not_or.mp hb
      simp [readString, hquote, hslash, ih]

end Strings

section Lists

def isBlank (b : UInt8) : Bool := b = 32 ∨ b = 10 ∨ b = 13 ∨ b = 9

def skip (s : List UInt8) : List UInt8 := s.dropWhile isBlank

/-- A new line with its indentation. -/
def line (depth : ℕ) : List UInt8 := 10 :: List.replicate (4*depth) 32

@[simp] theorem skip_cons {b : UInt8} {s : List UInt8} (h : isBlank b = false) :
    skip (b :: s) = b :: s := by
  simp [skip, h]

@[simp] theorem skip_line (depth : ℕ) (s : List UInt8) : skip (line depth ++ s) = skip s := by
  refine List.dropWhile_append_of_pos fun b hb => ?_
  rcases List.mem_cons.mp hb with rfl | hb
  · rfl
  · rw [List.eq_of_mem_replicate hb]
    rfl

/-- Items on lines of their own with commas between them. -/
def joined (depth : ℕ) (item : List UInt8) : List (List UInt8) → List UInt8
  | [] => line (depth+1) ++ item
  | next :: items => line (depth+1) ++ item ++ 44 :: joined depth next items

/-- The items of an array or an object between its brackets. -/
def enclose (opening closing : UInt8) (depth : ℕ) : List (List UInt8) → List UInt8
  | [] => [opening,closing]
  | item :: items => opening :: joined depth item items ++ line depth ++ [closing]

variable {α : Type}

/-- Items separated by commas, at least one, up to the closing bracket. -/
def readItems (read : List UInt8 → Option (α × List UInt8)) (closing : UInt8) :
    ℕ → List UInt8 → Option (List α × List UInt8)
  | 0,_ => none
  | fuel+1,s => do
    let (a,s) ← read s
    match skip s with
    | [] => none
    | b :: s =>
      if b = closing then return ([a],s)
      else if b = 44 then
        let (as,s) ← readItems read closing fuel s
        return (a :: as,s)
      else none

def readList (read : List UInt8 → Option (α × List UInt8)) (closing : UInt8) (s : List UInt8) :
    Option (List α × List UInt8) :=
  (readItems read closing s.length s).or <|
    match skip s with
    | [] => none
    | b :: s => if b = closing then some ([],s) else none

/-- A reader gets this value from this text, whatever follows it. -/
def ReadsBack (read : List UInt8 → Option (α × List UInt8)) (item : List UInt8) (a : α) : Prop :=
  ∀ depth rest, Delimited rest → read (line depth ++ item ++ rest) = some (a,rest)

theorem length_joined (depth : ℕ) (item : List UInt8) (items : List (List UInt8)) :
    items.length < (joined depth item items).length := by
  induction items generalizing item with
  | nil => simp [joined, line]
  | cons next items ih =>
    have := ih next
    simp only [joined, List.length_append, List.length_cons]
    omega

variable {read : List UInt8 → Option (α × List UInt8)} {closing : UInt8}

/-- A closing bracket is neither a blank nor a comma. -/
theorem closing_spec (h : closing = 93 ∨ closing = 125) :
    isBlank closing = false ∧ 44 ≠ closing := by
  rcases h with rfl | rfl <;> decide

theorem readItems_joined {item : List UInt8} {items : List (List UInt8)} {a : α} {as : List α}
    {depth fuel : ℕ} {rest : List UInt8} (hitem : ReadsBack read item a)
    (hitems : List.Forall₂ (ReadsBack read) items as) (hclosing : closing = 93 ∨ closing = 125)
    (hfuel : items.length < fuel) :
    readItems read closing fuel (joined depth item items ++ line depth ++ closing :: rest) =
      some (a :: as,rest) := by
  obtain ⟨hblank,hcomma⟩ := closing_spec hclosing
  induction hitems generalizing item a fuel with
  | nil =>
    obtain _ | fuel := fuel
    · simp at hfuel
    have hrest : Delimited (line depth ++ closing :: rest) := by simp [Delimited, line, isDigit]
    rw [joined, List.append_assoc, readItems, hitem (depth+1) _ hrest]
    simp [skip_cons hblank]
  | @cons next b items as hnext hitems ih =>
    obtain _ | fuel := fuel
    · simp at hfuel
    have hrest (s : List UInt8) : Delimited (44 :: s) := by simp [Delimited, isDigit]
    have hnotBlank : isBlank 44 = false := by decide
    rw [joined, List.append_assoc, List.append_assoc, List.cons_append, readItems,
      hitem (depth+1) _ (hrest _)]
    simp only [Option.bind_eq_bind, Option.bind_some, skip_cons hnotBlank, hcomma, ↓reduceIte]
    rw [← List.append_assoc, ih hnext (by simpa using hfuel)]
    rfl

theorem readList_enclose (opening closing : UInt8) (depth : ℕ) (rest : List UInt8)
    {items : List (List UInt8)} {as : List α} (hitems : List.Forall₂ (ReadsBack read) items as)
    (hclosing : closing = 93 ∨ closing = 125) (hend : ∀ s, read (closing :: s) = none) :
    ∃ s, enclose opening closing depth items ++ rest = opening :: s ∧
      readList read closing s = some (as,rest) := by
  cases hitems with
  | nil =>
    refine ⟨closing :: rest,rfl,?_⟩
    simp [readList, readItems, hend, skip_cons (closing_spec hclosing).1]
  | @cons item a items as hitem hitems =>
    refine ⟨joined depth item items ++ line depth ++ closing :: rest,by simp [enclose],?_⟩
    have hlength := length_joined depth item items
    unfold readList
    rw [readItems_joined hitem hitems hclosing (by simp only [List.length_append]; omega)]
    rfl

/-- What holds of every item that is read holds of all items of a list. -/
theorem readItems_all {P : α → Prop} (hread : ∀ s a rest, read s = some (a,rest) → P a)
    {fuel : ℕ} {s rest : List UInt8} {as : List α}
    (h : readItems read closing fuel s = some (as,rest)) : ∀ a ∈ as, P a := by
  induction fuel generalizing s as with
  | zero => simp [readItems] at h
  | succ fuel ih =>
    simp only [readItems, Option.bind_eq_bind, Option.bind_eq_some_iff, Prod.exists] at h
    obtain ⟨a,t,ha,h⟩ := h
    split at h
    · simp at h
    · next b t' _ =>
      split_ifs at h
      · obtain ⟨rfl,rfl⟩ := Prod.mk.inj (Option.some.inj h)
        simpa using hread s a t ha
      · simp only [Option.bind_eq_some_iff, Prod.exists] at h
        obtain ⟨as',t'',has,he⟩ := h
        obtain ⟨rfl,rfl⟩ := Prod.mk.inj (Option.some.inj he)
        exact List.forall_mem_cons.mpr ⟨hread s a t ha,ih has⟩

theorem readList_all {P : α → Prop} (hread : ∀ s a rest, read s = some (a,rest) → P a)
    {s rest : List UInt8} {as : List α} (h : readList read closing s = some (as,rest)) :
    ∀ a ∈ as, P a := by
  unfold readList at h
  rcases Option.or_eq_some_iff.mp h with h | ⟨_,h⟩
  · exact readItems_all hread h
  · split at h
    · simp at h
    · split_ifs at h
      obtain ⟨rfl,rfl⟩ := Prod.mk.inj (Option.some.inj h)
      simp

end Lists

section Values

def integerText (z : ℤ) : List UInt8 :=
  if z < 0 then 45 :: decimal z.natAbs else decimal z.natAbs

mutual

/-- The text of a value that starts at this depth. -/
def print (depth : ℕ) : Json → Option (List UInt8)
  | .null => some [110,117,108,108]
  | .boolean true => some [116,114,117,101]
  | .boolean false => some [102,97,108,115,101]
  | .integer z => some (integerText z)
  | .double _ => none
  | .string s => quoted s
  | .array elements => (printElements (depth+1) elements).map (enclose 91 93 depth)
  | .object fields => (printFields (depth+1) fields).map (enclose 123 125 depth)

def printElements (depth : ℕ) : List Json → Option (List (List UInt8))
  | [] => some []
  | j :: elements => do return (← print depth j) :: (← printElements depth elements)

def printFields (depth : ℕ) : List (List UInt8 × Json) → Option (List (List UInt8))
  | [] => some []
  | (key,j) :: fields => do
    return ((← quoted key) ++ 58 :: 32 :: (← print depth j)) :: (← printFields depth fields)

end

def readWord : List UInt8 → Option (Json × List UInt8)
  | 110 :: 117 :: 108 :: 108 :: s => some (.null,s)
  | 116 :: 114 :: 117 :: 101 :: s => some (.boolean true,s)
  | 102 :: 97 :: 108 :: 115 :: 101 :: s => some (.boolean false,s)
  | _ => none

/-- A key, a colon and a value. -/
def readMember (read : List UInt8 → Option (Json × List UInt8)) (s : List UInt8) :
    Option ((List UInt8 × Json) × List UInt8) :=
  match skip s with
  | 34 :: s => do
    let (key,s) ← readString false s
    match skip s with
    | 58 :: s => do
      let (j,s) ← read s
      return ((key,j),s)
    | _ => none
  | _ => none

/-- The value at the start of a text and what follows it, within this depth of nesting. -/
def readValue : ℕ → List UInt8 → Option (Json × List UInt8)
  | 0,_ => none
  | fuel+1,s =>
    match skip s with
    | [] => none
    | b :: s =>
      if b = 34 then (readString false s).map fun r => (.string r.1,r.2)
      else if b = 91 then (readList (readValue fuel) 93 s).map fun r => (.array r.1,r.2)
      else if b = 123 then
        (readList (readMember (readValue fuel)) 125 s).map fun r => (record r.1,r.2)
      else if b = 45 then do
        let (n,s) ← readDecimal s
        return (← inRange (-n),s)
      else if isDigit b then do
        let (n,s) ← readDecimal (b :: s)
        return (← inRange n,s)
      else readWord (b :: s)

/-- The value that a whole text stands for. -/
def readText (text : List UInt8) : Option Json := do
  let (j,rest) ← readValue (text.length+1) text
  if skip rest = [] then return j else none

theorem canonical_inRange {z : ℤ} {j : Json} (h : inRange z = some j) : j.Canonical := by
  unfold inRange at h
  split_ifs at h with hz
  obtain rfl := Option.some.inj h
  exact .integer hz

theorem canonical_readWord {s rest : List UInt8} {j : Json} (h : readWord s = some (j,rest)) :
    j.Canonical := by
  unfold readWord at h
  split at h
  · obtain ⟨rfl,_⟩ := Prod.mk.inj (Option.some.inj h)
    exact .null
  · obtain ⟨rfl,_⟩ := Prod.mk.inj (Option.some.inj h)
    exact .boolean true
  · obtain ⟨rfl,_⟩ := Prod.mk.inj (Option.some.inj h)
    exact .boolean false
  · simp at h

theorem canonical_readMember {read : List UInt8 → Option (Json × List UInt8)}
    (hread : ∀ s j rest, read s = some (j,rest) → j.Canonical) {s rest : List UInt8}
    {f : List UInt8 × Json} (h : readMember read s = some (f,rest)) : f.2.Canonical := by
  unfold readMember at h
  split at h
  · simp only [Option.bind_eq_bind, Option.bind_eq_some_iff, Prod.exists] at h
    obtain ⟨key,t,_,h⟩ := h
    split at h
    · simp only [Option.bind_eq_some_iff, Prod.exists] at h
      obtain ⟨j,t',hj,he⟩ := h
      obtain ⟨rfl,_⟩ := Prod.mk.inj (Option.some.inj he)
      exact hread _ j t' hj
    · simp at h
  · simp at h

/-- Whatever is read is canonical. -/
theorem canonical_readValue {fuel : ℕ} {s rest : List UInt8} {j : Json}
    (h : readValue fuel s = some (j,rest)) : j.Canonical := by
  induction fuel generalizing s j rest with
  | zero => simp [readValue] at h
  | succ fuel ih =>
    have hread : ∀ s j rest, readValue fuel s = some (j,rest) → j.Canonical := fun _ _ _ => ih
    unfold readValue at h
    split at h
    · simp at h
    · split_ifs at h
      · obtain ⟨r,_,he⟩ := Option.map_eq_some_iff.mp h
        obtain ⟨rfl,_⟩ := Prod.mk.inj he
        exact .string r.1
      · obtain ⟨r,hr,he⟩ := Option.map_eq_some_iff.mp h
        obtain ⟨rfl,_⟩ := Prod.mk.inj he
        exact .array (readList_all hread hr)
      · obtain ⟨r,hr,he⟩ := Option.map_eq_some_iff.mp h
        obtain ⟨rfl,_⟩ := Prod.mk.inj he
        exact canonical_record (readList_all (P := fun f => f.2.Canonical)
          (fun _ _ _ => canonical_readMember hread) hr)
      · simp only [Option.bind_eq_bind, Option.bind_eq_some_iff, Prod.exists] at h
        obtain ⟨n,t,_,k,hk,he⟩ := h
        obtain ⟨rfl,_⟩ := Prod.mk.inj (Option.some.inj he)
        exact canonical_inRange hk
      · simp only [Option.bind_eq_bind, Option.bind_eq_some_iff, Prod.exists] at h
        obtain ⟨n,t,_,k,hk,he⟩ := h
        obtain ⟨rfl,_⟩ := Prod.mk.inj (Option.some.inj he)
        exact canonical_inRange hk
      · exact canonical_readWord h

theorem canonical_readText {text : List UInt8} {j : Json} (h : readText text = some j) :
    j.Canonical := by
  simp only [readText, Option.bind_eq_bind, Option.bind_eq_some_iff, Prod.exists] at h
  obtain ⟨k,rest,hk,he⟩ := h
  split_ifs at he
  obtain rfl := Option.some.inj he
  exact canonical_readValue hk

theorem readValue_congr {fuel : ℕ} {s t : List UInt8} (h : skip s = skip t) :
    readValue fuel s = readValue fuel t := by
  cases fuel with
  | zero => rfl
  | succ fuel => rw [readValue, readValue, h]

/-- What a reader gets from a text it also gets behind a line break. -/
theorem readsBack_readValue {fuel : ℕ} {text : List UInt8} {j : Json}
    (h : ∀ rest, Delimited rest → readValue fuel (text ++ rest) = some (j,rest)) :
    ReadsBack (readValue fuel) text j := by
  intro depth rest hrest
  rw [List.append_assoc]
  exact (readValue_congr (skip_line depth _)).trans (h rest hrest)

/-- A digit starts no other value. -/
theorem ne_of_isDigit {b c : UInt8} (h : isDigit b = true) (hc : isDigit c = false) : b ≠ c := by
  rintro rfl
  simp [h] at hc

theorem readValue_integerText {z : ℤ} (hz : InRange z) {fuel : ℕ} {rest : List UInt8}
    (hrest : Delimited rest) :
    readValue (fuel+1) (integerText z ++ rest) = some (.integer z,rest) := by
  have hrange : inRange z = some (.integer z) := if_pos hz
  have hminus : isBlank 45 = false := by decide
  unfold integerText
  split_ifs with hneg
  · have habs : -(z.natAbs : ℤ) = z := by omega
    rw [List.cons_append, readValue, skip_cons hminus]
    dsimp only
    rw [if_neg (by decide), if_neg (by decide), if_neg (by decide), if_pos rfl,
      readDecimal_decimal hrest]
    rw [Option.bind_eq_bind, Option.bind_some]
    dsimp only
    rw [habs, hrange]
    rfl
  · have habs : (z.natAbs : ℤ) = z := by omega
    have hread := readDecimal_decimal (n := z.natAbs) hrest
    obtain ⟨b,digits,hb⟩ := List.exists_cons_of_ne_nil (decimal_ne_nil (n := z.natAbs))
    have hdigit : isDigit b = true := isDigit_decimal b (hb ▸ List.mem_cons_self ..)
    have hblank : isBlank b = false := by
      simp [isBlank, ne_of_isDigit hdigit (c := 32) rfl, ne_of_isDigit hdigit (c := 10) rfl,
        ne_of_isDigit hdigit (c := 13) rfl, ne_of_isDigit hdigit (c := 9) rfl]
    rw [hb, List.cons_append] at hread ⊢
    rw [readValue, skip_cons hblank]
    dsimp only
    rw [if_neg (ne_of_isDigit hdigit (c := 34) rfl), if_neg (ne_of_isDigit hdigit (c := 91) rfl),
      if_neg (ne_of_isDigit hdigit (c := 123) rfl), if_neg (ne_of_isDigit hdigit (c := 45) rfl),
      if_pos hdigit, hread, Option.bind_eq_bind, Option.bind_some]
    dsimp only
    rw [habs, hrange]
    rfl

theorem forall₂_printElements {depth : ℕ} {elements : List Json} {items : List (List UInt8)}
    (h : printElements depth elements = some items) :
    List.Forall₂ (fun item j => print depth j = some item) items elements := by
  induction elements generalizing items with
  | nil =>
    obtain rfl := Option.some.inj h
    exact .nil
  | cons j elements ih =>
    simp only [printElements, Option.bind_eq_bind, Option.bind_eq_some_iff] at h
    obtain ⟨item,hitem,items',hitems,he⟩ := h
    obtain rfl := Option.some.inj he
    exact .cons hitem (ih hitems)

theorem forall₂_printFields {depth : ℕ} {fields : List (List UInt8 × Json)}
    {items : List (List UInt8)} (h : printFields depth fields = some items) :
    List.Forall₂ (fun item f => ∃ key text, quoted f.1 = some key ∧ print depth f.2 = some text ∧
      item = key ++ 58 :: 32 :: text) items fields := by
  induction fields generalizing items with
  | nil =>
    obtain rfl := Option.some.inj h
    exact .nil
  | cons f fields ih =>
    obtain ⟨key,j⟩ := f
    simp only [printFields, Option.bind_eq_bind, Option.bind_eq_some_iff] at h
    obtain ⟨key',hkey,text,htext,items',hitems,he⟩ := h
    obtain rfl := Option.some.inj he
    exact .cons ⟨key',text,hkey,htext,rfl⟩ (ih hitems)

theorem readValue_quoted {s text rest : List UInt8} (h : quoted s = some text) {fuel : ℕ} :
    readValue (fuel+1) (text ++ rest) = some (.string s,rest) := by
  unfold quoted at h
  split_ifs at h
  obtain rfl := Option.some.inj h
  have hblank : isBlank 34 = false := by decide
  rw [List.cons_append, List.append_assoc, readValue, skip_cons hblank]
  dsimp only
  rw [if_pos rfl, List.cons_append, List.nil_append, readString_flatMap]
  rfl

/-- A member reads back if its value does. -/
theorem readsBack_readMember {read : List UInt8 → Option (Json × List UInt8)}
    {f : List UInt8 × Json} {key text : List UInt8} (hkey : quoted f.1 = some key)
    (hread : ∀ rest, Delimited rest → read (32 :: (text ++ rest)) = some (f.2,rest)) :
    ReadsBack (readMember read) (key ++ 58 :: 32 :: text) f := by
  intro depth rest hrest
  unfold quoted at hkey
  split_ifs at hkey
  obtain rfl := Option.some.inj hkey
  have hquote : isBlank 34 = false := by decide
  have hcolon : isBlank 58 = false := by decide
  unfold readMember
  rw [List.append_assoc, skip_line]
  simp only [List.cons_append, List.append_assoc, List.nil_append, skip_cons hquote,
    readString_flatMap, Option.bind_eq_bind, Option.bind_some, skip_cons hcolon,
    hread rest hrest]
  rfl

theorem length_lt_enclose (opening closing : UInt8) (depth : ℕ) {items : List (List UInt8)}
    {item : List UInt8} (h : item ∈ items) :
    item.length < (enclose opening closing depth items).length := by
  have general (first : List UInt8) (items : List (List UInt8)) (h : item ∈ first :: items) :
      item.length ≤ (joined depth first items).length := by
    induction items generalizing first with
    | nil =>
      obtain rfl := List.mem_singleton.mp h
      simp [joined]
    | cons next items ih =>
      simp only [joined, List.length_append, List.length_cons]
      rcases List.mem_cons.mp h with rfl | h
      · omega
      · have := ih next h
        omega
  cases items with
  | nil => simp at h
  | cons first items =>
    have := general first items h
    simp only [enclose, List.cons_append, List.length_cons, List.length_append]
    omega

/-- Fields in order are the record that is built from them. -/
theorem record_of_sorted {fields : List (List UInt8 × Json)} (h : Sorted fields) :
    record fields = .object fields := by
  have last (base : List (List UInt8 × Json)) (f : List UInt8 × Json)
      (hbase : ∀ g ∈ base, rank g.1 < rank f.1) : insertField f.1 f.2 base = base ++ [f] := by
    induction base with
    | nil => rfl
    | cons g base ih =>
      obtain ⟨hg,hbase⟩ := List.forall_mem_cons.mp hbase
      have hne : g.1 ≠ f.1 := fun he => (he ▸ hg).false
      rw [insertField, if_neg hne, if_neg hg.asymm, ih hbase, List.cons_append]
  have general (base fields : List (List UInt8 × Json)) (h : Sorted (base ++ fields)) :
      fields.foldl (fun object f => insertField f.1 f.2 object) base = base ++ fields := by
    induction fields generalizing base with
    | nil => simp
    | cons f fields ih =>
      have hbase : ∀ g ∈ base, rank g.1 < rank f.1 := fun g hg =>
        (List.pairwise_append.mp h).2.2 g hg f (List.mem_cons_self ..)
      rw [List.append_cons] at h
      rw [List.foldl_cons, last base f hbase, ih (base ++ [f]) h, ← List.append_cons]
  exact congrArg object (general [] fields h)

theorem readValue_closing {fuel : ℕ} {s : List UInt8} : readValue fuel (93 :: s) = none := by
  cases fuel with
  | zero => rfl
  | succ fuel => simp [readValue, skip, isBlank, isDigit, readWord]

theorem readValue_array {fuel depth : ℕ} {items : List (List UInt8)} {elements : List Json}
    {rest : List UInt8} (h : List.Forall₂ (ReadsBack (readValue fuel)) items elements) :
    readValue (fuel+1) (enclose 91 93 depth items ++ rest) = some (.array elements,rest) := by
  obtain ⟨s,hs,hread⟩ := readList_enclose 91 93 depth rest h (.inl rfl) fun s => readValue_closing
  have hblank : isBlank 91 = false := by decide
  rw [hs, readValue, skip_cons hblank]
  dsimp only
  rw [if_neg (by decide), if_pos rfl, hread]
  rfl

theorem readValue_object {fuel depth : ℕ} {items : List (List UInt8)}
    {fields : List (List UInt8 × Json)} {rest : List UInt8} (sorted : Sorted fields)
    (h : List.Forall₂ (ReadsBack (readMember (readValue fuel))) items fields) :
    readValue (fuel+1) (enclose 123 125 depth items ++ rest) = some (.object fields,rest) := by
  obtain ⟨s,hs,hread⟩ := readList_enclose 123 125 depth rest h (.inr rfl) fun s => rfl
  have hblank : isBlank 123 = false := by decide
  rw [hs, readValue, skip_cons hblank]
  dsimp only
  rw [if_neg (by decide), if_neg (by decide), if_pos rfl, hread, Option.map_some,
    record_of_sorted sorted]

/-- The reader undoes the printer. -/
theorem readValue_print {j : Json} (h : j.Canonical) {depth fuel : ℕ} {text rest : List UInt8}
    (hprint : print depth j = some text) (hfuel : text.length ≤ fuel) (hrest : Delimited rest) :
    readValue (fuel+1) (text ++ rest) = some (j,rest) := by
  induction h generalizing depth fuel text rest with
  | null =>
    obtain rfl := Option.some.inj hprint
    simp [readValue, skip, isBlank, isDigit, readWord]
  | boolean b =>
    cases b with
    | true =>
      obtain rfl := Option.some.inj hprint
      simp [readValue, skip, isBlank, isDigit, readWord]
    | false =>
      obtain rfl := Option.some.inj hprint
      simp [readValue, skip, isBlank, isDigit, readWord]
  | @integer z range =>
    obtain rfl : integerText z = text := Option.some.inj hprint
    exact readValue_integerText range hrest
  | double finite => simp [print] at hprint
  | string s => exact readValue_quoted hprint
  | @array elements all ih =>
    obtain ⟨items,hitems,rfl⟩ := Option.map_eq_some_iff.mp hprint
    obtain ⟨hlength,hzip⟩ := List.forall₂_iff_zip.mp (forall₂_printElements hitems)
    refine readValue_array (List.forall₂_iff_zip.mpr ⟨hlength,fun {item j} hmem => ?_⟩)
    obtain ⟨hitem,hj⟩ := List.of_mem_zip hmem
    have hshort := length_lt_enclose 91 93 depth hitem
    obtain ⟨fuel,rfl⟩ := Nat.exists_eq_succ_of_ne_zero (show fuel ≠ 0 by omega)
    exact readsBack_readValue fun rest hrest => ih j hj (hzip hmem) (by omega) hrest
  | @object fields sorted all ih =>
    obtain ⟨items,hitems,rfl⟩ := Option.map_eq_some_iff.mp hprint
    obtain ⟨hlength,hzip⟩ := List.forall₂_iff_zip.mp (forall₂_printFields hitems)
    refine readValue_object sorted (List.forall₂_iff_zip.mpr ⟨hlength,fun {item f} hmem => ?_⟩)
    obtain ⟨hitem,hf⟩ := List.of_mem_zip hmem
    obtain ⟨key,text,hkey,htext,rfl⟩ := hzip hmem
    have hshort := length_lt_enclose 123 125 depth hitem
    simp only [List.length_append, List.length_cons] at hshort
    obtain ⟨fuel,rfl⟩ := Nat.exists_eq_succ_of_ne_zero (show fuel ≠ 0 by omega)
    refine readsBack_readMember hkey fun rest hrest => ?_
    have hskip : skip (32 :: (text ++ rest)) = skip (text ++ rest) := rfl
    exact (readValue_congr hskip).trans (ih f hf htext (by omega) hrest)

/-- Reading undoes printing. -/
theorem readText_print {j : Json} (h : j.Canonical) {text : List UInt8}
    (hprint : print 0 j = some text) : readText text = some j := by
  have hend : Delimited [] := nofun
  have hread := readValue_print h hprint le_rfl hend
  rw [List.append_nil] at hread
  unfold readText
  rw [hread]
  rfl

end Values

end Foskv.Generic.Json
