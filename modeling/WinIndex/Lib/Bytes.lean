import Mathlib.Data.List.Basic
import Mathlib.Tactic.Ring
import WinIndex.Lib.Segments

/-!
# Little-endian words

The bytes of a number, least significant first, at a fixed width, and the number a list of bytes spells. A round trip
through `n` bytes is reduction modulo `256 ^ n`; the fixed-width unsigned types are the widths at which it is the identity.
-/

namespace LittleEndian

/-- The first `n` bytes of `v`, least significant first. -/
def leBytes : Nat → Nat → List UInt8
  | 0, _ => []
  | n + 1, v => UInt8.ofNat v :: leBytes n (v / 256)

/-- The number a list of bytes spells, least significant byte first. -/
def leNat : List UInt8 → Nat
  | [] => 0
  | b :: bs => b.toNat + 256 * leNat bs

@[simp] theorem length_leBytes (n v : Nat) : (leBytes n v).length = n := by
  induction n generalizing v with
  | zero => rfl
  | succ n ih => simp [leBytes, ih]

theorem leNat_leBytes (n v : Nat) : leNat (leBytes n v) = v % 256 ^ n := by
  induction n generalizing v with
  | zero => simp [leBytes, leNat, Nat.mod_one]
  | succ n ih =>
    rw [leBytes, leNat, ih, Nat.pow_succ, Nat.mul_comm (256 ^ n) 256, Nat.mod_mul]
    simp

/-! ## The fixed-width types -/

/-- The bytes of a 16-bit word. -/
def u16 (v : UInt16) : List UInt8 := leBytes 2 v.toNat
/-- The bytes of a 32-bit word. -/
def u32 (v : UInt32) : List UInt8 := leBytes 4 v.toNat
/-- The bytes of a 64-bit word. -/
def u64 (v : UInt64) : List UInt8 := leBytes 8 v.toNat

/-- The 16-bit word two bytes spell. -/
def toU16 (bs : List UInt8) : UInt16 := UInt16.ofNat (leNat bs)
/-- The 32-bit word four bytes spell. -/
def toU32 (bs : List UInt8) : UInt32 := UInt32.ofNat (leNat bs)
/-- The 64-bit word eight bytes spell. -/
def toU64 (bs : List UInt8) : UInt64 := UInt64.ofNat (leNat bs)

@[simp] theorem length_u16 (v : UInt16) : (u16 v).length = 2 := length_leBytes _ _
@[simp] theorem length_u32 (v : UInt32) : (u32 v).length = 4 := length_leBytes _ _
@[simp] theorem length_u64 (v : UInt64) : (u64 v).length = 8 := length_leBytes _ _

@[simp] theorem toU16_u16 (v : UInt16) : toU16 (u16 v) = v := by
  have h : v.toNat % 256 ^ 2 = v.toNat := Nat.mod_eq_of_lt v.toNat_lt
  rw [toU16, u16, leNat_leBytes, h, UInt16.ofNat_toNat]

@[simp] theorem toU32_u32 (v : UInt32) : toU32 (u32 v) = v := by
  have h : v.toNat % 256 ^ 4 = v.toNat := Nat.mod_eq_of_lt v.toNat_lt
  rw [toU32, u32, leNat_leBytes, h, UInt32.ofNat_toNat]

@[simp] theorem toU64_u64 (v : UInt64) : toU64 (u64 v) = v := by
  have h : v.toNat % 256 ^ 8 = v.toNat := Nat.mod_eq_of_lt v.toNat_lt
  rw [toU64, u64, leNat_leBytes, h, UInt64.ofNat_toNat]

/-! ## Arrays of 16-bit words -/

/-- The bytes of an array of 16-bit words. -/
def wide (ws : List UInt16) : List UInt8 := ws.flatMap u16

/-- The 16-bit words an array of bytes holds; an odd byte at the end is dropped. -/
def toWide : List UInt8 → List UInt16
  | a :: b :: bs => toU16 [a, b] :: toWide bs
  | _ => []

@[simp] theorem length_wide (ws : List UInt16) : (wide ws).length = 2 * ws.length := by
  induction ws with
  | nil => rfl
  | cons w ws ih =>
    have h : wide (w :: ws) = u16 w ++ wide ws := rfl
    rw [h, List.length_append, length_u16, ih, List.length_cons]
    ring

@[simp] theorem toWide_wide (ws : List UInt16) : toWide (wide ws) = ws := by
  induction ws with
  | nil => rfl
  | cons w ws ih =>
    have h : toWide (wide (w :: ws)) = toU16 (u16 w) :: toWide (wide ws) := rfl
    rw [h, ih, toU16_u16]

/-- The words that were written are read, and then what follows. -/
theorem toWide_wide_append (ws : List UInt16) (bs : List UInt8) : toWide (wide ws ++ bs) = ws ++ toWide bs := by
  induction ws with
  | nil => rfl
  | cons w ws ih =>
    have h : toWide (wide (w :: ws) ++ bs) = toU16 (u16 w) :: toWide (wide ws ++ bs) := rfl
    rw [h, ih, toU16_u16, List.cons_append]

theorem length_toWide : ∀ (bs : List UInt8), (toWide bs).length = bs.length / 2
  | [] => rfl
  | [_] => by simp [toWide]
  | _ :: _ :: bs => by
    rw [toWide, List.length_cons, length_toWide bs, List.length_cons, List.length_cons]
    omega

/-! ## Fields -/

/-- The words that stand at a position. -/
def fieldU16 (buf : List UInt8) (pos : Nat) : UInt16 := toU16 (Segments.slice buf pos 2)
def fieldU32 (buf : List UInt8) (pos : Nat) : UInt32 := toU32 (Segments.slice buf pos 4)
def fieldU64 (buf : List UInt8) (pos : Nat) : UInt64 := toU64 (Segments.slice buf pos 8)

/-- What stands before a part of the buffer is not seen in it. -/
theorem fieldU16_append (pre rest : List UInt8) (off : Nat) : fieldU16 (pre ++ rest) (pre.length + off) = fieldU16 rest off := by
  rw [fieldU16, fieldU16, Segments.slice_append_add]

theorem fieldU32_append (pre rest : List UInt8) (off : Nat) : fieldU32 (pre ++ rest) (pre.length + off) = fieldU32 rest off := by
  rw [fieldU32, fieldU32, Segments.slice_append_add]

theorem fieldU64_append (pre rest : List UInt8) (off : Nat) : fieldU64 (pre ++ rest) (pre.length + off) = fieldU64 rest off := by
  rw [fieldU64, fieldU64, Segments.slice_append_add]

end LittleEndian
