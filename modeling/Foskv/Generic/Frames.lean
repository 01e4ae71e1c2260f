import Mathlib.Algebra.Ring.Nat
import Mathlib.Data.List.Infix
import Mathlib.Data.Nat.Init
import Mathlib.Tactic.SplitIfs

/-! Frames on a byte stream: big-endian numbers, the read of an exact number of bytes, and the
loop that reads a header and its payload again and again until one of them is cut off. -/
namespace Foskv.Generic.Frames

/-- The lowest `w` digits of `n` in base 256, the highest of them first. -/
def bigEndian : ℕ → ℕ → List UInt8
  | 0,_ => []
  | w+1,n => bigEndian w (n/256) ++ [UInt8.ofNat n]

def ofBigEndian (bs : List UInt8) : ℕ := bs.foldl (fun n b => 256*n + b.toNat) 0

@[simp] theorem length_bigEndian (w n : ℕ) : (bigEndian w n).length = w := by
  induction w generalizing n with
  | zero => rfl
  | succ w ih => simp [bigEndian, ih]

@[simp] theorem ofBigEndian_bigEndian (w n : ℕ) : ofBigEndian (bigEndian w n) = n % 256^w := by
  induction w generalizing n with
  | zero => simp [bigEndian, ofBigEndian, Nat.mod_one]
  | succ w ih =>
    have hlow : (UInt8.ofNat n).toNat = n % 256 := UInt8.toNat_ofNat'
    have hhigh := ih (n/256)
    rw [ofBigEndian] at hhigh
    rw [bigEndian, ofBigEndian, List.foldl_append, hhigh, Nat.pow_succ, Nat.mul_comm (256^w),
      Nat.mod_mul]
    simp only [List.foldl_cons, List.foldl_nil, hlow]
    omega

/-- The next `n` bytes and the stream after them. -/
def readExact (n : ℕ) (stream : List UInt8) : Option (List UInt8 × List UInt8) :=
  if n ≤ stream.length then some (stream.take n,stream.drop n) else none

theorem readExact_append {n : ℕ} {bs : List UInt8} (h : bs.length = n) (rest : List UInt8) :
    readExact n (bs ++ rest) = some (bs,rest) := by
  subst h
  simp [readExact]

section Loop
variable {α ε : Type*}

def writeFrames (write : α → List UInt8) (as : List α) : List UInt8 := (as.map write).flatten

@[simp] theorem writeFrames_nil (write : α → List UInt8) : writeFrames write [] = [] := rfl

variable {write : α → List UInt8} {read : List UInt8 → Except ε (α × List UInt8)} {ok : α → Prop}

end Loop

/-- A header of fixed size that tells the length of the payload after it. -/
structure HeaderFormat (η : Type*) where
  size : ℕ
  write : η → List UInt8
  read : List UInt8 → η
  payloadSize : η → ℕ
  length_write : ∀ header, (write header).length = size
  read_write : ∀ header, read (write header) = header
  size_pos : 0 < size

/-- Where the read of a frame fails. -/
inductive Stop (η : Type*)
  | header
  | tooLarge (header : η)
  | payload (header : η)
  deriving DecidableEq, Repr

namespace HeaderFormat
variable {η : Type*} (F : HeaderFormat η)

def writeFrame (frame : η × List UInt8) : List UInt8 := F.write frame.1 ++ frame.2

/-- The header, the check of the announced size, the payload. -/
def readFrame (limit : ℕ) (stream : List UInt8) :
    Except (Stop η) ((η × List UInt8) × List UInt8) :=
  match readExact F.size stream with
  | none => .error .header
  | some (bs,stream) =>
    if limit < F.payloadSize (F.read bs) then .error (.tooLarge (F.read bs))
    else
      match readExact (F.payloadSize (F.read bs)) stream with
      | none => .error (.payload (F.read bs))
      | some (payload,stream) => .ok ((F.read bs,payload),stream)

/-- The header announces the payload, which keeps to the limit. -/
def Fits (limit : ℕ) (frame : η × List UInt8) : Prop :=
  F.payloadSize frame.1 = frame.2.length ∧ frame.2.length ≤ limit

variable {F}

/-- The part of `readFrame` after a header. -/
theorem readFrame_write (limit : ℕ) (header : η) (stream : List UInt8) :
    F.readFrame limit (F.write header ++ stream) =
      if limit < F.payloadSize header then .error (.tooLarge header)
      else
        match readExact (F.payloadSize header) stream with
        | none => .error (.payload header)
        | some (payload,stream) => .ok ((header,payload),stream) := by
  simp only [readFrame, readExact_append (F.length_write header), F.read_write]

end HeaderFormat
end Foskv.Generic.Frames
