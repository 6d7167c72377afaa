import Mathlib.Data.BitVec

/-!
The decoders of A32 ARM and A64 instructions.

A matcher accepts the words that have an expected value under a mask.  The decoders put the
matchers into buckets by twelve bits of the word, chosen so that a bucket is short, and search
only the bucket of the word.
-/

namespace Umbra.Decoder

structure Matcher (F : Type) where
  name : String
  mask : BitVec 32
  expected : BitVec 32
  fn : F

structure Entry (F : Type) where
  fn : F
  name : String
  bitstring : Vector Char 32

variable {F : Type}

def Matcher.matchesWord (m : Matcher F) (instruction : BitVec 32) : Bool :=
  instruction &&& m.mask == m.expected

def addBit (bitstring : Vector Char 32) (maskExpect : BitVec 32 × BitVec 32) (i : Fin 32) :
    BitVec 32 × BitVec 32 :=
  let bit := 1#32 <<< (32 - i.val - 1)
  match bitstring.get i with
  | '0' => (maskExpect.1 ||| bit, maskExpect.2)
  | '1' => (maskExpect.1 ||| bit, maskExpect.2 ||| bit)
  | _ => maskExpect

def getMaskAndExpect (bitstring : Vector Char 32) : BitVec 32 × BitVec 32 :=
  (List.finRange 32).foldl (addBit bitstring) (0#32, 0#32)

def getMatcher (entry : Entry F) : Matcher F where
  name := entry.name
  mask := (getMaskAndExpect entry.bitstring).1
  expected := (getMaskAndExpect entry.bitstring).2
  fn := entry.fn

def countOnes (x : BitVec 32) : ℕ := x.cpop.toNat

/-- The `stable_sort` of both decoders: more specific matchers come first. -/
def sortMatchers (list : List (Matcher F)) : List (Matcher F) :=
  list.mergeSort fun matcher₁ matcher₂ => countOnes matcher₂.mask ≤ countOnes matcher₁.mask

/-- The bits of a word that choose its bucket: masking the word masks the bucket. -/
structure LookupIndex where
  index : BitVec 32 → BitVec 32
  lt_size : ∀ instruction, (index instruction).toNat < 0x1000
  index_and : ∀ x y, index (x &&& y) = index x &&& index y

def decodeTable (bucket : LookupIndex) (list : List (Matcher F)) :
    Vector (List (Matcher F)) 0x1000 :=
  .ofFn fun i => list.filter fun matcher =>
    BitVec.ofNat 32 i &&& bucket.index matcher.mask == bucket.index matcher.expected

def lookup (bucket : LookupIndex) (table : Vector (List (Matcher F)) 0x1000)
    (instruction : BitVec 32) : Option (Matcher F) :=
  have := bucket.lt_size instruction
  let subtable := table[(bucket.index instruction).toNat]
  subtable.find? (·.matchesWord instruction)

/-! ### The buckets -/

def lookupBits (low high : ℕ) (instruction : BitVec 32) : BitVec 32 :=
  ((instruction >>> low) &&& 0x00F#32) ||| ((instruction >>> high) &&& 0xFF0#32)

theorem toNat_lookupBits_lt (low high : ℕ) (instruction : BitVec 32) :
    (lookupBits low high instruction).toNat < 0x1000 := by
  have hlow : ((instruction >>> low) &&& 0x00F#32).toNat < 2 ^ 12 := by
    rw [BitVec.toNat_and]
    exact Nat.and_lt_two_pow _ (by decide)
  have hhigh : ((instruction >>> high) &&& 0xFF0#32).toNat < 2 ^ 12 := by
    rw [BitVec.toNat_and]
    exact Nat.and_lt_two_pow _ (by decide)
  rw [lookupBits, BitVec.toNat_or]
  exact Nat.or_lt_two_pow hlow hhigh

theorem and_or_and {x y x' y' m n : BitVec 32} (hdisjoint : m &&& n = 0#32) :
    ((x &&& x') &&& m) ||| ((y &&& y') &&& n) =
      ((x &&& m) ||| (y &&& n)) &&& ((x' &&& m) ||| (y' &&& n)) := by
  ext i hi
  have hbit : (m[i] && n[i]) = false := by
    rw [← BitVec.getElem_and, hdisjoint, BitVec.getElem_zero]
  simp only [BitVec.getElem_or, BitVec.getElem_and]
  cases hm : m[i] with
  | false => simp [Bool.and_assoc, Bool.and_left_comm]
  | true =>
      obtain hn : n[i] = false := by simpa [hm] using hbit
      simp [hn]

theorem lookupBits_and (low high : ℕ) (x y : BitVec 32) :
    lookupBits low high (x &&& y) = lookupBits low high x &&& lookupBits low high y := by
  rw [lookupBits, BitVec.ushiftRight_and_distrib, BitVec.ushiftRight_and_distrib]
  exact and_or_and (by decide)

def lookupIndex (low high : ℕ) : LookupIndex :=
  ⟨lookupBits low high, toNat_lookupBits_lt low high, lookupBits_and low high⟩

theorem bucket_of_matches (bucket : LookupIndex) {m : Matcher F} {instruction : BitVec 32}
    (h : m.matchesWord instruction = true) :
    bucket.index instruction &&& bucket.index m.mask = bucket.index m.expected := by
  rw [← bucket.index_and, eq_of_beq h]

theorem lookup_decodeTable (bucket : LookupIndex) (list : List (Matcher F))
    (instruction : BitVec 32) :
    lookup bucket (decodeTable bucket list) instruction =
      list.find? (·.matchesWord instruction) := by
  simp only [lookup, decodeTable, Vector.getElem_ofFn, List.find?_filter, BitVec.ofNat_toNat,
    BitVec.setWidth_eq]
  congr 1
  funext m
  rw [Bool.eq_iff_iff, decide_eq_true_iff, beq_iff_eq]
  exact ⟨And.right, fun h => ⟨bucket_of_matches bucket h, h⟩⟩

/-! ### The words that a bitstring accepts -/

def AgreesAt (bitstring : Vector Char 32) (instruction : BitVec 32) (i : Fin 32) : Prop :=
  (bitstring.get i = '0' → instruction.getLsbD (31 - i) = false) ∧
    (bitstring.get i = '1' → instruction.getLsbD (31 - i) = true)

theorem getLsbD_addBit (bitstring : Vector Char 32) (maskExpect : BitVec 32 × BitVec 32)
    (i j : Fin 32) :
    (addBit bitstring maskExpect i).1.getLsbD (31 - j) = (maskExpect.1.getLsbD (31 - j) ||
        decide (i = j ∧ (bitstring.get j = '0' ∨ bitstring.get j = '1'))) ∧
      (addBit bitstring maskExpect i).2.getLsbD (31 - j) = (maskExpect.2.getLsbD (31 - j) ||
        decide (i = j ∧ bitstring.get j = '1')) := by
  have hbit : (1#32 <<< (32 - i.val - 1)).getLsbD (31 - j) = decide (i = j) := by
    rw [BitVec.getLsbD_shiftLeft, BitVec.getLsbD_one, Bool.eq_iff_iff]
    simp only [Bool.and_eq_true, decide_eq_true_iff, Bool.not_eq_true', decide_eq_false_iff_not,
      Fin.ext_iff]
    omega
  unfold addBit
  by_cases hij : i = j
  · subst hij
    split
    · rename_i hc
      simp [hbit, hc]
    · rename_i hc
      simp [hbit, hc]
    · rename_i hzero hone
      simp [show bitstring.get i ≠ '0' from hzero, show bitstring.get i ≠ '1' from hone]
  · split
    · simp [hbit, hij]
    · simp [hbit, hij]
    · simp [hij]

theorem getLsbD_foldl_addBit (bitstring : Vector Char 32) (turns : List (Fin 32)) (j : Fin 32)
    (maskExpect : BitVec 32 × BitVec 32) :
    (turns.foldl (addBit bitstring) maskExpect).1.getLsbD (31 - j) =
        (maskExpect.1.getLsbD (31 - j) ||
          decide (j ∈ turns ∧ (bitstring.get j = '0' ∨ bitstring.get j = '1'))) ∧
      (turns.foldl (addBit bitstring) maskExpect).2.getLsbD (31 - j) =
        (maskExpect.2.getLsbD (31 - j) || decide (j ∈ turns ∧ bitstring.get j = '1')) := by
  induction turns generalizing maskExpect with
  | nil => simp
  | cons i turns ih =>
      obtain ⟨hmask, hexpect⟩ := getLsbD_addBit bitstring maskExpect i j
      rw [List.foldl_cons, (ih _).1, (ih _).2, hmask, hexpect, Bool.or_assoc, Bool.or_assoc]
      simp only [← Bool.decide_or, List.mem_cons, ← or_and_right, eq_comm (a := i), and_self]

theorem getLsbD_getMaskAndExpect (bitstring : Vector Char 32) (j : Fin 32) :
    (getMaskAndExpect bitstring).1.getLsbD (31 - j) =
        decide (bitstring.get j = '0' ∨ bitstring.get j = '1') ∧
      (getMaskAndExpect bitstring).2.getLsbD (31 - j) = decide (bitstring.get j = '1') := by
  simpa [getMaskAndExpect] using getLsbD_foldl_addBit bitstring (List.finRange 32) j (0#32, 0#32)

theorem eq_iff_getLsbD {x y : BitVec 32} :
    x = y ↔ ∀ i : Fin 32, x.getLsbD (31 - i) = y.getLsbD (31 - i) := by
  refine ⟨fun h i => by rw [h], fun h => BitVec.eq_of_getLsbD_eq fun j hj => ?_⟩
  have hbit := h ⟨31 - j, by omega⟩
  rwa [show 31 - (31 - j) = j by omega] at hbit

/-- A matcher accepts the words that agree with its bitstring. -/
theorem matchesWord_getMatcher {entry : Entry F} {instruction : BitVec 32} :
    (getMatcher entry).matchesWord instruction = true ↔
      ∀ i, AgreesAt entry.bitstring instruction i := by
  rw [Matcher.matchesWord, beq_iff_eq, eq_iff_getLsbD]
  refine forall_congr' fun i => ?_
  obtain ⟨hmask, hexpect⟩ := getLsbD_getMaskAndExpect entry.bitstring i
  rw [BitVec.getLsbD_and]
  simp only [getMatcher, hmask, hexpect, AgreesAt]
  by_cases hzero : entry.bitstring.get i = '0'
  · simp [hzero]
  · by_cases hone : entry.bitstring.get i = '1'
    · simp [hone]
    · simp [hzero, hone]

/-! ### The order of the matchers -/

/-- A matcher and its place in the list come before others that are less specific, and before
those as specific with a later place. -/
def Precedes (x y : Matcher F × ℕ) : Prop :=
  countOnes y.1.mask < countOnes x.1.mask ∨
    countOnes y.1.mask = countOnes x.1.mask ∧ x.2 ≤ y.2

def sortPlaced (list : List (Matcher F)) : List (Matcher F × ℕ) :=
  list.zipIdx.mergeSort (List.zipIdxLE fun m m' => countOnes m'.mask ≤ countOnes m.mask)

theorem map_sortPlaced (list : List (Matcher F)) :
    (sortPlaced list).map (·.1) = sortMatchers list :=
  List.mergeSort_zipIdx

theorem mem_sortPlaced {list : List (Matcher F)} {x : Matcher F × ℕ} :
    x ∈ sortPlaced list ↔ list[x.2]? = some x.1 :=
  List.mem_mergeSort.trans List.mem_zipIdx_iff_getElem?

theorem pairwise_sortPlaced (list : List (Matcher F)) : (sortPlaced list).Pairwise Precedes := by
  refine (List.pairwise_mergeSort (List.zipIdxLE_trans ?_) (List.zipIdxLE_total ?_) _).imp ?_
  · intro a b c hab hbc
    simp only [decide_eq_true_iff] at hab hbc ⊢
    exact hbc.trans hab
  · intro a b
    simp only [Bool.or_eq_true, decide_eq_true_iff]
    exact Nat.le_total _ _
  · intro x y h
    simp only [List.zipIdxLE, decide_eq_true_iff] at h
    split_ifs at h with hle hge
    · exact Or.inr ⟨le_antisymm hle hge, of_decide_eq_true h⟩
    · exact Or.inl (not_le.mp hge)

/-- What a decoder that tries its instructions in the order `R` should find for a word: the first
instruction that agrees with it. -/
def FirstAgreeing (R : Matcher F × ℕ → Matcher F × ℕ → Prop) (instructions : List (Entry F))
    (instruction : BitVec 32) : Option (Matcher F) → Prop
  | none => ∀ entry ∈ instructions, ¬∀ i, AgreesAt entry.bitstring instruction i
  | some m => ∃ k entry, instructions[k]? = some entry ∧ getMatcher entry = m ∧
      (∀ i, AgreesAt entry.bitstring instruction i) ∧
      ∀ j other, instructions[j]? = some other →
        (∀ i, AgreesAt other.bitstring instruction i) → R (m, k) (getMatcher other, j)

/-- A search in a sorted list finds the first that agrees. -/
theorem firstAgreeing_find? {R : Matcher F × ℕ → Matcher F × ℕ → Prop} (hrefl : ∀ x, R x x)
    {instructions : List (Entry F)} {order : List (Matcher F × ℕ)}
    (hmem : ∀ x, x ∈ order ↔ (instructions.map getMatcher)[x.2]? = some x.1)
    (hsorted : order.Pairwise R) (instruction : BitVec 32) :
    FirstAgreeing R instructions instruction
      ((order.map (·.1)).find? (·.matchesWord instruction)) := by
  have hplace {k entry} (h : instructions[k]? = some entry) : (getMatcher entry, k) ∈ order := by
    rw [hmem, List.getElem?_map, h, Option.map_some]
  rw [List.find?_map]
  cases hfind : order.find? _ with
  | none =>
      intro entry hentry hagrees
      obtain ⟨k, hk⟩ := List.getElem?_of_mem hentry
      exact List.find?_eq_none.mp hfind _ (hplace hk) (matchesWord_getMatcher.mpr hagrees)
  | some x =>
      obtain ⟨hmatches, before, after, rfl, hbefore⟩ := List.find?_eq_some_iff_append.mp hfind
      have hx := (hmem x).mp (by simp)
      rw [List.getElem?_map, Option.map_eq_some_iff] at hx
      obtain ⟨entry, hentry, hm⟩ := hx
      rw [Function.comp_apply, ← hm] at hmatches
      refine ⟨x.2, entry, hentry, hm, matchesWord_getMatcher.mp hmatches, ?_⟩
      intro j other hother hagrees
      -- what stands before `x` does not match, and what stands after it is related
      rcases List.mem_append.mp (hplace hother) with hj | hj
      · simpa [matchesWord_getMatcher.mpr hagrees] using hbefore _ hj
      · rcases List.mem_cons.mp hj with hj | hj
        · exact hj ▸ hrefl x
        · exact List.rel_of_pairwise_cons (List.pairwise_append.mp hsorted).2.1 hj

end Umbra.Decoder

namespace Umbra.A32

open Umbra.Decoder

variable {F : Type}

def toFastLookupIndexArm : LookupIndex := lookupIndex 4 16

/-- The list of `GetArmDecodeTable` in its order; `instructions` are the lines of `arm.inc`. -/
def armMatchers (instructions : List (Entry F)) : List (Matcher F) :=
  sortMatchers (instructions.map getMatcher)

def getArmDecodeTable (instructions : List (Entry F)) : Vector (List (Matcher F)) 0x1000 :=
  decodeTable toFastLookupIndexArm (armMatchers instructions)

def decodeArm (instructions : List (Entry F)) (instruction : BitVec 32) : Option (Matcher F) :=
  lookup toFastLookupIndexArm (getArmDecodeTable instructions) instruction

/-- `DecodeArm` finds the most specific of the instructions that agree with the word, and of
equally specific ones the first of `arm.inc`. -/
theorem decodeArm_firstAgreeing (instructions : List (Entry F)) (instruction : BitVec 32) :
    FirstAgreeing Precedes instructions instruction (decodeArm instructions instruction) := by
  rw [decodeArm, getArmDecodeTable, lookup_decodeTable, armMatchers, ← map_sortPlaced]
  exact firstAgreeing_find? (fun _ => Or.inr ⟨rfl, le_rfl⟩) (fun _ => mem_sortPlaced)
    (pairwise_sortPlaced _) instruction

end Umbra.A32

namespace Umbra.A64

open Umbra.Decoder

variable {F : Type}

def toFastLookupIndex : LookupIndex := lookupIndex 10 18

/-- The instructions that come before more specific ones. -/
def comesFirst : List String :=
  ["MOVI, MVNI, ORR, BIC (vector, immediate)", "FMOV (vector, immediate)",
    "Unallocated SIMD modified immediate"]

def matchers (instructions : List (Entry F)) : List (Matcher F) :=
  let list := sortMatchers (instructions.map getMatcher)
  -- `stable_partition`
  list.filter (·.name ∈ comesFirst) ++ list.filter (·.name ∉ comesFirst)

def getDecodeTable (instructions : List (Entry F)) : Vector (List (Matcher F)) 0x1000 :=
  decodeTable toFastLookupIndex (matchers instructions)

def decode (instructions : List (Entry F)) (instruction : BitVec 32) : Option (Matcher F) :=
  lookup toFastLookupIndex (getDecodeTable instructions) instruction

def PrecedesA64 (x y : Matcher F × ℕ) : Prop :=
  (y.1.name ∈ comesFirst → x.1.name ∈ comesFirst) ∧
    ((x.1.name ∈ comesFirst ↔ y.1.name ∈ comesFirst) → Precedes x y)

/-- `Decode` finds the first of the instructions that agree with the word, where those of
`comesFirst` come first, then the more specific ones, then those earlier in `a64.inc`. -/
theorem decode_firstAgreeing (instructions : List (Entry F)) (instruction : BitVec 32) :
    FirstAgreeing PrecedesA64 instructions instruction (decode instructions instruction) := by
  rw [decode, getDecodeTable, lookup_decodeTable, matchers, ← map_sortPlaced, List.filter_map,
    List.filter_map, ← List.map_append]
  have hsorted := pairwise_sortPlaced (instructions.map getMatcher)
  refine firstAgreeing_find? (fun _ => ⟨id, fun _ => Or.inr ⟨rfl, le_rfl⟩⟩) ?_ ?_ instruction
  · intro x
    simp only [List.mem_append, List.mem_filter, Function.comp_apply, decide_eq_true_iff,
      ← and_or_left, em, and_true, mem_sortPlaced]
  · simp only [List.pairwise_append, List.mem_filter, Function.comp_apply, decide_eq_true_iff]
    refine ⟨?_, ?_, ?_⟩
    · exact (hsorted.filter _).imp_of_mem fun hx _ h =>
        ⟨fun _ => of_decide_eq_true (List.mem_filter.mp hx).2, fun _ => h⟩
    · exact (hsorted.filter _).imp_of_mem fun _ hy h =>
        ⟨fun hfirst => absurd hfirst (of_decide_eq_true (List.mem_filter.mp hy).2), fun _ => h⟩
    · exact fun x hx y hy => ⟨fun _ => hx.2, fun hsame => absurd (hsame.mp hx.2) hy.2⟩

end Umbra.A64

namespace Umbra.Decoder

/-- The buckets change nothing: over any list of matchers, a search in the bucket of the word
finds what a search in the list finds, and so do both decoders. -/
theorem decode_eq_linear_scan {F : Type} (instruction : BitVec 32) :
    (∀ list : List (Matcher F), ∀ bucket ∈ [A32.toFastLookupIndexArm, A64.toFastLookupIndex],
      lookup bucket (decodeTable bucket list) instruction =
        list.find? (·.matchesWord instruction)) ∧
    (∀ instructions : List (Entry F), A32.decodeArm instructions instruction =
      (A32.armMatchers instructions).find? (·.matchesWord instruction)) ∧
    ∀ instructions : List (Entry F), A64.decode instructions instruction =
      (A64.matchers instructions).find? (·.matchesWord instruction) :=
  ⟨fun list bucket _ => lookup_decodeTable bucket list instruction,
    fun _ => lookup_decodeTable _ _ instruction, fun _ => lookup_decodeTable _ _ instruction⟩

end Umbra.Decoder
