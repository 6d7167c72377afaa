import Umbra.Lib.Lanes

/-!
Memories of bytes with wrapping addresses.

A write replaces the bytes from an address on by a list of bytes.  Writes one
behind the other are one write of the lists appended, as long as they do not meet
their own beginning at the other end of the memory.
-/

namespace Umbra.Lib

abbrev ByteMemory (w : ℕ) := BitVec w → BitVec 8

namespace ByteMemory

variable {w : ℕ} (m : ByteMemory w) (a : BitVec w)

def read (n : ℕ) : List (BitVec 8) := (List.range n).map fun i => m (a + BitVec.ofNat w i)

def write (l : List (BitVec 8)) : ByteMemory w := fun x => (l[(x - a).toNat]?).getD (m x)

variable {m a}

@[simp] theorem length_read (n : ℕ) : (m.read a n).length = n := by simp [read]

theorem read_add (n n' : ℕ) : m.read a (n + n') = m.read a n ++ m.read (a + BitVec.ofNat w n) n' := by
  rw [read, List.range_add, List.map_append, List.map_map]
  refine congrArg (m.read a n ++ ·) (List.map_congr_left fun i _ => ?_)
  simp only [Function.comp, BitVec.ofNat_add, BitVec.add_assoc]

theorem write_of_le {l : List (BitVec 8)} {x : BitVec w} (h : l.length ≤ (x - a).toNat) :
    m.write a l x = m x := by
  rw [write, List.getElem?_eq_none h, Option.getD_none]

theorem toNat_sub_add {x : BitVec w} {n : ℕ} (hn : n ≤ (x - a).toNat) :
    (x - (a + BitVec.ofNat w n)).toNat = (x - a).toNat - n := by
  have hlt := (x - a).isLt
  rw [sub_add_eq_sub_sub, BitVec.toNat_sub, BitVec.toNat_ofNat, Nat.mod_eq_of_lt (hn.trans_lt hlt)]
  have hsum : 2 ^ w - n + (x - a).toNat = (x - a).toNat - n + 2 ^ w := by omega
  rw [hsum, Nat.add_mod_right, Nat.mod_eq_of_lt (by omega)]

theorem toNat_sub_add_of_lt {x : BitVec w} {n : ℕ} (hn : (x - a).toNat < n) (hw : n ≤ 2 ^ w) :
    2 ^ w - n ≤ (x - (a + BitVec.ofNat w n)).toNat := by
  rcases Nat.lt_or_eq_of_le hw with hlt | rfl
  · rw [sub_add_eq_sub_sub, BitVec.toNat_sub, BitVec.toNat_ofNat, Nat.mod_eq_of_lt hlt,
      Nat.mod_eq_of_lt (by omega)]
    omega
  · omega

theorem write_append {l l' : List (BitVec 8)} (h : l.length + l'.length ≤ 2 ^ w) :
    (m.write a l).write (a + BitVec.ofNat w l.length) l' = m.write a (l ++ l') := by
  funext x
  by_cases hx : (x - a).toNat < l.length
  · have hfar := toNat_sub_add_of_lt hx (by omega)
    rw [write_of_le (by omega), write, write, List.getElem?_append_left hx]
  · rw [not_lt] at hx
    have hback := toNat_sub_add hx
    rw [write, write, write, hback, List.getElem?_append_right hx, List.getElem?_eq_none hx]
    rfl

theorem read_write_self {l : List (BitVec 8)} (h : l.length ≤ 2 ^ w) :
    (m.write a l).read a l.length = l := by
  refine List.ext_getElem (by simp) fun i hi hi' => ?_
  have hoffset : (a + BitVec.ofNat w i - a).toNat = i := by
    rw [BitVec.add_comm, BitVec.add_sub_cancel, BitVec.toNat_ofNat, Nat.mod_eq_of_lt (by omega)]
  simp only [read, write, List.getElem_map, List.getElem_range, hoffset,
    List.getElem?_eq_getElem hi', Option.getD_some]

end ByteMemory

/-! ### Values as bytes -/

open Lanes

def bytesOf {k : ℕ} (n : ℕ) (v : BitVec k) : List (BitVec 8) := (List.range n).map (lane 8 v)

def ofBytes (k : ℕ) (l : List (BitVec 8)) : BitVec k := ofLanes k fun i => l.getD i 0#8

variable {n : ℕ}

@[simp] theorem length_bytesOf {k : ℕ} (v : BitVec k) : (bytesOf n v).length = n := by
  simp [bytesOf]

theorem ofBytes_bytesOf (v : BitVec (8 * n)) : ofBytes (8 * n) (bytesOf n v) = v := by
  refine eq_of_lanes 8 n (by decide) rfl fun i hi => ?_
  rw [ofBytes, lane_ofLanes _ (by omega)]
  simp [bytesOf, hi]

theorem bytesOf_ofBytes {l : List (BitVec 8)} (hl : l.length = n) :
    bytesOf n (ofBytes (8 * n) l) = l := by
  refine List.ext_getElem (by simp [hl]) fun i hi hi' => ?_
  simp only [bytesOf, List.getElem_map, List.getElem_range, ofBytes]
  rw [lane_ofLanes _ (by omega)]
  simp [hi']

def byteReverse (v : BitVec (8 * n)) : BitVec (8 * n) := ofBytes (8 * n) (bytesOf n v).reverse

theorem byteReverse_byteReverse (v : BitVec (8 * n)) : byteReverse (byteReverse v) = v := by
  rw [byteReverse, byteReverse, bytesOf_ofBytes (by simp), List.reverse_reverse, ofBytes_bytesOf]

end Umbra.Lib
