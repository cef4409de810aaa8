import CSE320.Lib.CString
import CSE320.Xacto.Data

namespace CSE320.Xacto

open Lib (Byte)

def numBuckets : Int := 8

structure Key where
  hash : Int
  blob : Blob
deriving DecidableEq, Repr

-- The content as it lies in memory: blob_create adds a NUL.
def Blob.memory (bp : Blob) : Option (List Byte) := bp.content.map (· ++ [0])

-- A char is signed, and the remainder has the sign of the character.
def blobHash : Option Blob → Int
  | none => -1
  | some bp =>
    match bp.memory with
    | some content => (content.headD 0).toInt.tmod numBuckets
    | none => 0

def keyCreate (bp : Option Blob) : Option Key :=
  bp.map fun blob => { hash := blobHash (some blob), blob }

-- The greater size becomes an int, and from it a size_t again. A content that is NULL
-- cannot be compared.
def blobCompare (bp1 bp2 : Blob) : Option Int := do
  let content1 ← bp1.memory
  let content2 ← bp2.memory
  let max := BitVec.ofNat 32 (if bp1.size > bp2.size then bp1.size else bp2.size)
  return Lib.strncmp content1 content2 (max.signExtend 64).toNat

def keyCompare (kp1 kp2 : Key) : Option Int :=
  if kp1.hash = kp2.hash then blobCompare kp1.blob kp2.blob else some (-1)

-- What proto_recv_packet hands to the server for a key that is not empty.
structure Payload where
  bytes : List Byte
  size : BitVec 32
  sized : size.toNat = bytes.length
  nonempty : bytes ≠ []

namespace Payload

def blob (p : Payload) : Blob := newBlob (some p.bytes) p.size.toNat

-- The key that the server makes of it.
def key (p : Payload) : Option Key := keyCreate (some p.blob)

end Payload

-- The hashes are places in the table, and the comparison tells different strings apart.
def Identified (a b : Payload) : Prop :=
  ∃ ka kb, a.key = some ka ∧ b.key = some kb ∧
    (0 ≤ ka.hash ∧ ka.hash < numBuckets) ∧ (0 ≤ kb.hash ∧ kb.hash < numBuckets) ∧
      (keyCompare ka kb = some 0 ↔ a.bytes = b.bytes)

-- The first byte is not negative as a char, or a multiple of the number of buckets.
def InTable (p : Payload) : Prop := (p.bytes.headD 0).toNat < 128 ∨ (p.bytes.headD 0).toNat % 8 = 0

section

variable {a b p : Payload}

theorem memory_blob (p : Payload) : p.blob.memory = some (p.bytes ++ [0]) := by
  have hall : p.bytes.take p.size.toNat = p.bytes := List.take_of_length_le (le_of_eq p.sized.symm)
  show (Option.map _ (Option.map _ (some p.bytes))) = _
  rw [Option.map_some, Option.map_some, hall]

theorem key_eq (p : Payload) :
    p.key = some ⟨((p.bytes.headD 0).toInt.tmod numBuckets), p.blob⟩ := by
  rw [Payload.key, keyCreate, Option.map_some, blobHash, memory_blob]
  simp only [Lib.headD_append_nul]

theorem bucket_iff (c : Byte) :
    (0 ≤ c.toInt.tmod numBuckets ∧ c.toInt.tmod numBuckets < numBuckets) ↔
      c.toNat < 128 ∨ c.toNat % 8 = 0 := by
  revert c
  decide

-- At least as many characters are compared as the strings have.
theorem le_count {m n : Nat} (hm : m < 2 ^ 32) (h : n ≤ m) :
    n ≤ ((BitVec.ofNat 32 m).signExtend 64).toNat := by
  have hvalue : ((BitVec.ofNat 32 m).setWidth 64).toNat = m := by
    rw [BitVec.toNat_setWidth, BitVec.toNat_ofNat, Nat.mod_eq_of_lt hm]
    omega
  rw [BitVec.toNat_signExtend, hvalue]
  exact Nat.le_add_right_of_le h

theorem blobCompare_eq_zero :
    blobCompare a.blob b.blob = some 0 ↔ Lib.cstr a.bytes = Lib.cstr b.bytes := by
  have ha : a.bytes.length < 2 ^ 32 := a.sized ▸ a.size.isLt
  have hb : b.bytes.length < 2 ^ 32 := b.sized ▸ b.size.isLt
  have hsize (p : Payload) : p.blob.size = p.bytes.length := p.sized
  have hcompare (n : Nat) (hna : a.bytes.length ≤ n) (hnb : b.bytes.length ≤ n) :
      Lib.strncmp (a.bytes ++ [0]) (b.bytes ++ [0]) n = 0 ↔
        Lib.cstr a.bytes = Lib.cstr b.bytes := by
    have hla := (Lib.length_cstr_le a.bytes).trans hna
    have hlb := (Lib.length_cstr_le b.bytes).trans hnb
    rw [Lib.strncmp_eq_zero, Lib.cstr_append_nul, Lib.cstr_append_nul,
      List.take_of_length_le hla, List.take_of_length_le hlb]
  unfold blobCompare
  rw [memory_blob, memory_blob]
  simp only [Option.bind_eq_bind, Option.bind_some, Option.pure_def, Option.some.injEq, hsize]
  apply hcompare
  · apply le_count <;> split <;> omega
  · apply le_count <;> split <;> omega

-- Keys with different hashes have different first bytes.
theorem keyCompare_eq_zero {ka kb : Key} (ha : a.key = some ka) (hb : b.key = some kb) :
    keyCompare ka kb = some 0 ↔ Lib.cstr a.bytes = Lib.cstr b.bytes := by
  rw [key_eq] at ha hb
  obtain rfl := Option.some.inj ha
  obtain rfl := Option.some.inj hb
  rw [keyCompare]
  split
  · exact blobCompare_eq_zero
  · rename_i hne
    refine iff_of_false (by decide) fun hsame => hne ?_
    have hhead : a.bytes.headD 0 = b.bytes.headD 0 := by
      rw [← Lib.headD_cstr, hsame, Lib.headD_cstr]
    simp only [hhead]

end

-- The keys are right exactly when their first bytes are, and the strings do not differ
-- only behind a NUL.
theorem identified_iff (a b : Payload) :
    Identified a b ↔ (InTable a ∧ InTable b) ∧
      (a.bytes = b.bytes ∨ Lib.cstr a.bytes ≠ Lib.cstr b.bytes) := by
  have hcompare : ((Lib.cstr a.bytes = Lib.cstr b.bytes) ↔ a.bytes = b.bytes) ↔
      (a.bytes = b.bytes ∨ Lib.cstr a.bytes ≠ Lib.cstr b.bytes) := by
    constructor
    · intro h
      by_cases hsame : Lib.cstr a.bytes = Lib.cstr b.bytes
      · exact Or.inl (h.mp hsame)
      · exact Or.inr hsame
    · intro h
      exact ⟨fun hsame => h.resolve_right (not_not.mpr hsame), congrArg Lib.cstr⟩
  rw [← hcompare]
  unfold Identified InTable
  rw [← bucket_iff, ← bucket_iff]
  constructor
  · rintro ⟨ka, kb, ha, hb, hbucket, hbucket', hsame⟩
    rw [keyCompare_eq_zero ha hb] at hsame
    rw [key_eq] at ha hb
    obtain rfl := Option.some.inj ha
    obtain rfl := Option.some.inj hb
    exact ⟨⟨hbucket, hbucket'⟩, hsame⟩
  · rintro ⟨⟨hbucket, hbucket'⟩, hsame⟩
    refine ⟨_, _, key_eq a, key_eq b, hbucket, hbucket', ?_⟩
    rw [keyCompare_eq_zero (key_eq a) (key_eq b)]
    exact hsame

-- A first byte above 127 gives a negative hash, and two keys are the same up to a NUL.
theorem not_identified :
    ¬Identified ⟨[255], 1, rfl, by decide⟩ ⟨[255], 1, rfl, by decide⟩ ∧
      ¬Identified ⟨[97, 0, 98], 3, rfl, by decide⟩ ⟨[97, 0, 99], 3, rfl, by decide⟩ := by
  constructor
  · rintro ⟨ka, kb, ha, -, hbucket, -⟩
    obtain rfl := Option.some.inj ha
    exact absurd hbucket.1 (by decide)
  · rintro ⟨ka, kb, ha, hb, -, -, hsame⟩
    obtain rfl := Option.some.inj ha
    obtain rfl := Option.some.inj hb
    exact absurd (hsame.mp (by decide)) (by decide)

end CSE320.Xacto
