import CSE320.Audible.Frame
import CSE320.Audible.WellFormed

namespace CSE320.Audible

open Lib (Byte)

-- The frames 0, N, 2 N and so on.
def selectedFrames (factor size n : Nat) (data : List Byte) : List Byte :=
  (List.range (multiples factor n)).flatMap fun k => sampleOf size (k * factor) data

-- The frames are taken in their order and as they are.
def SpedUp (options : BitVec 64) (argv : List (List Byte)) (stream data : List Byte)
    (hp : AudioHeader) : Prop :=
  WritesData options argv stream hp
    (selectedFrames (factorOf options) (frameLength hp) (data.length / frameLength hp) data)

-- The loop runs for one frame more than there are, which must not be selected, and a
-- frame of more than four bytes must end with what its first ones are.
def SpeedUpFits (options : BitVec 64) (hp : AudioHeader) (data : List Byte) : Prop :=
  let factor := factorOf options
  let n := data.length / frameLength hp
  n % factor ≠ 0 ∧ (n + 1) * factor < 2 ^ 32 ∧
    ∀ k < multiples factor n, let frame := sampleOf (frameLength hp) (k * factor) data
      frame.take (frame.length - 4) = frame.drop 4

-- Frame by frame, a frame that is not selected counts for no bytes.
theorem flatMap_multiples {α : Type} {factor : Nat} (hpos : 0 < factor)
    (f : Nat → List α) (n : Nat) :
    ((List.range n).flatMap fun i => if i % factor = 0 then f i else []) =
      (List.range (multiples factor n)).flatMap fun k => f (k * factor) := by
  induction n with
  | zero =>
      have hzero : multiples factor 0 = 0 := Nat.div_eq_of_lt (by omega)
      rw [hzero]
      rfl
  | succ n ih =>
      rw [List.range_succ, List.flatMap_append, List.flatMap_singleton, ih, multiples_succ hpos]
      split
      · rename_i hmod
        have hlast : multiples factor n * factor = n := by
          obtain ⟨q, rfl⟩ := Nat.dvd_of_mod_eq_zero hmod
          rw [multiples, Nat.add_sub_assoc hpos, Nat.mul_add_div hpos, Nat.div_eq_of_lt (by omega),
            Nat.add_zero, Nat.mul_comm]
        rw [List.range_succ, List.flatMap_append, List.flatMap_singleton, hlast]
      · rw [List.append_nil, Nat.add_zero]

-- At the end of the input the buffer stays as it is.
theorem speedUpLoop_stdout (hp : AudioHeader) (factor : BitVec 32) (n i : Nat) (s : Process) :
    (speedUpLoop hp factor n i s).stdout = s.stdout ++ (List.range n).flatMap fun j =>
      if (i + j) % factor.toNat = 0 then
        frameBytes (frameLength hp)
          (pack (loadInt inputFrame s) (s.stdin.take ((j + 1) * frameLength hp)))
      else [] := by
  induction n generalizing i s with
  | zero => simp [speedUpLoop]
  | succ n ih =>
      obtain ⟨-, hin, hout, -, hload⟩ := readFrameLoop_spec inputFrame (frameLength hp) s
      have hread : readInputFrame hp s = readFrameLoop inputFrame (frameLength hp) s := rfl
      rw [speedUpLoop, hread]
      generalize readFrameLoop inputFrame (frameLength hp) s = result at *
      obtain ⟨ok, read⟩ := result
      simp only at hin hout hload ⊢
      have hpack (j : Nat) :
          pack (loadInt inputFrame read) (read.stdin.take ((j + 1) * frameLength hp)) =
          pack (loadInt inputFrame s) (s.stdin.take ((j + 1 + 1) * frameLength hp)) := by
        rw [hload, hin, Nat.succ_mul (j + 1), Nat.add_comm _ (frameLength hp), List.take_add,
          pack, pack, pack, List.foldl_append]
      have hrest : ((List.range n).flatMap fun j => if (i + 1 + j) % factor.toNat = 0 then
            frameBytes (frameLength hp)
              (pack (loadInt inputFrame read) (read.stdin.take ((j + 1) * frameLength hp)))
          else []) = (List.range n).flatMap fun j => if (i + (j + 1)) % factor.toNat = 0 then
            frameBytes (frameLength hp)
              (pack (loadInt inputFrame s) (s.stdin.take ((j + 1 + 1) * frameLength hp)))
          else [] := by
        refine List.flatMap_congr fun j _ => ?_
        rw [hpack, Nat.add_assoc, Nat.add_comm 1]
      have hzero : pack (loadInt inputFrame s) (s.stdin.take ((0 + 1) * frameLength hp)) =
          loadInt inputFrame read := by
        rw [hload, Nat.zero_add, Nat.one_mul]
      rw [List.range_succ_eq_map, List.flatMap_cons, List.flatMap_map, hzero]
      by_cases hselected : i % factor.toNat = 0
      · have hwrite : writeFrameOf inputFrame hp read =
            read.write (frameBytes (frameLength hp) (loadInt inputFrame read)) :=
          writeFrameLoop_eq _ _ _
        rw [if_pos hselected, if_pos (show (i + 0) % factor.toNat = 0 from hselected), ih, hwrite]
        show read.stdout ++ _ ++
          ((List.range n).flatMap fun j => if (i + 1 + j) % factor.toNat = 0 then
            frameBytes (frameLength hp)
              (pack (loadInt inputFrame read) (read.stdin.take ((j + 1) * frameLength hp)))
          else []) = _
        rw [hrest, hout, List.append_assoc]
      · rw [if_neg hselected, if_neg (show ¬(i + 0) % factor.toNat = 0 from hselected), ih, hrest,
          hout, List.nil_append]

section

variable {factor n : Nat} (hpos : 0 < factor) (hmax : factor ≤ 1024)

include hpos hmax

-- With the one frame too many, and modulo 2 ^ 32.
theorem multiples_rounds_iff :
    multiples factor ((n + 1) * factor % 2 ^ 32 / factor) = multiples factor n ↔
      n % factor ≠ 0 ∧ (n + 1) * factor < 2 ^ 32 := by
  by_cases hwrap : (n + 1) * factor < 2 ^ 32
  · rw [Nat.mod_eq_of_lt hwrap, Nat.mul_div_cancel _ hpos, multiples_succ hpos]
    split
    · rename_i hmod
      exact iff_of_false (Nat.succ_ne_self _) fun h => h.1 hmod
    · rename_i hmod
      exact iff_of_true (Nat.add_zero _) ⟨hmod, hwrap⟩
  · -- at least 2 ^ 22 frames are missing
    refine iff_of_false (Nat.ne_of_lt ?_) fun h => hwrap h.2
    have hmod : (n + 1) * factor % 2 ^ 32 + 2 ^ 32 ≤ (n + 1) * factor := by omega
    have hrounds : ((n + 1) * factor % 2 ^ 32 / factor + 2 * factor) * factor ≤ n * factor := by
      have hdiv := Nat.div_mul_le_self ((n + 1) * factor % 2 ^ 32) factor
      have hsquare : 2 * factor * factor + factor ≤ 2 ^ 32 := by
        have hprod := Nat.mul_le_mul (Nat.mul_le_mul_left 2 hmax) hmax
        omega
      rw [Nat.add_mul]
      rw [Nat.succ_mul n factor] at *
      omega
    have hless := Nat.le_of_mul_le_mul_right hrounds hpos
    have hstep : multiples factor ((n + 1) * factor % 2 ^ 32 / factor + factor) =
        multiples factor ((n + 1) * factor % 2 ^ 32 / factor) + 1 := by
      have hsub (m : Nat) : m + factor + factor - 1 = m + factor - 1 + factor := by omega
      rw [multiples, hsub, Nat.add_div_right _ hpos]
      rfl
    have hmono : multiples factor ((n + 1) * factor % 2 ^ 32 / factor + factor) ≤
        multiples factor n :=
      Nat.div_le_div_right (by omega)
    omega

end

theorem lt_of_lt_multiples {factor n k : Nat} (hpos : 0 < factor) (h : k < multiples factor n) :
    k * factor < n := by
  have hle := (Nat.le_div_iff_mul_le hpos).mp (Nat.succ_le_of_lt h)
  rw [Nat.succ_mul] at hle
  omega

-- What is written with -u.
theorem recoded_speedUp {args argv : List (List Byte)} {options : BitVec 64}
    (hargs : validargs args = (true, options)) (hu : options &&& optionU ≠ 0)
    {stream note data : List Byte} {hp : AudioHeader} (h : ValidStream stream hp note data)
    (hdata : data.length = hp.dataSize.toNat) (hinside : Inside options argv note hp) :
    let rounds := (data.length / frameLength hp + 1) * factorOf options % 2 ^ 32 / factorOf options
    ∃ offset note' v, offset.toNat = note'.length + 24 ∧
      recoded options argv stream = some (true, headerBytes (outputHeader options hp offset) ++
        (note' ++ (List.range (multiples (factorOf options) rounds)).flatMap fun k =>
          frameBytes (frameLength hp)
            (pack v (data.take ((k * factorOf options + 1) * frameLength hp))))) := by
  intro rounds
  obtain ⟨offset, note', s, hs, hrun⟩ := recode_eq_data h.annotated hinside.1
  obtain ⟨hd, hc⟩ := (only_mode hargs).1 hu
  obtain ⟨hfactor, hfactorPos, -⟩ : (factorWord options).toNat = factorOf options ∧
      0 < factorOf options ∧
      factorOf options ≤ 1024 := factor_toNat options
  have hloop : recodeData options (factorWord options) (outputHeader options hp offset) s =
      some (true, speedUpLoop (outputHeader options hp offset) (factorWord options)
        ((outputHeader options hp offset).dataSize / factorWord options).toNat 0 s) := by
    simp only [recodeData, if_pos hu, hd, hc, ne_eq, not_true_eq_false, if_false]
    rfl
  have hrounds : ((outputHeader options hp offset).dataSize / factorWord options).toNat =
      rounds := by
    have hsizeOut : (outputHeader options hp offset).dataSize.toNat =
        speedUpSize (factorOf options) hp :=
      outputSize_up h.valid hfactor hu
    rw [BitVec.toNat_udiv, hsizeOut, speedUpSize, hfactor]
    simp only [rounds, hdata]
  have hselect := flatMap_multiples hfactorPos (fun i => frameBytes (frameLength hp)
    (pack (loadInt inputFrame s) (data.take ((i + 1) * frameLength hp)))) rounds
  refine ⟨offset, note', loadInt inputFrame s, hs.size, ?_⟩
  rw [recoded, hrun, hloop, hrounds, Option.map_some, speedUpLoop_stdout]
  simp only [Nat.zero_add, hfactor, hs.stdout, hs.stdin, List.append_assoc]
  rw [← hselect]
  rfl

-- A frame that is read behind other ones is written as it is exactly when the bytes of it
-- that do not fit into the buffer are equal to the last ones.
theorem frameBytes_take_iff {size n i : Nat} {data : List Byte} (hmax : size ≤ 8) (hi : i < n)
    (hlen : n * size ≤ data.length) (v : BitVec 32) :
    frameBytes size (pack v (data.take ((i + 1) * size))) = sampleOf size i data ↔
      (sampleOf size i data).take (size - 4) = (sampleOf size i data).drop 4 := by
  have hlength := sampleOf_length hi hlen
  have htake : data.take ((i + 1) * size) = data.take (i * size) ++ sampleOf size i data := by
    rw [Nat.succ_mul, List.take_add]
    rfl
  have hpack (v : BitVec 32) (front frame : List Byte) :
      pack v (front ++ frame) = pack (pack v front) frame :=
    List.foldl_append
  have hbytes := frameBytes_pack (pack v (data.take (i * size))) (sampleOf size i data)
  have hkept := frameBytes_pack_iff (Nat.le_of_eq hlength |>.trans hmax)
  rw [hlength] at hbytes hkept
  rw [htake, hpack, hbytes, hkept]

-- With -u, in the buffers, the frames are taken as they should be exactly for these streams.
theorem spedUp_iff {args argv : List (List Byte)} {options : BitVec 64}
    (hargs : validargs args = (true, options)) (hu : options &&& optionU ≠ 0)
    {stream note data : List Byte} {hp : AudioHeader} (h : ValidStream stream hp note data)
    (hdata : data.length = hp.dataSize.toNat) :
    (recoded options argv stream = none ↔ ¬Inside options argv note hp) ∧
    (Inside options argv note hp →
      (SpedUp options argv stream data hp ↔ SpeedUpFits options hp data)) := by
  refine ⟨recoded_eq_none_iff h.annotated, fun hinside => ?_⟩
  obtain ⟨-, hpos, hmax⟩ := frameSize_eq h.valid
  obtain ⟨-, hfactorPos, hfactorMax⟩ := factor_toNat options
  obtain ⟨offset, note', v, hsize, hwritten⟩ := recoded_speedUp hargs hu h hdata hinside
  have hlen := Nat.div_mul_le_self data.length (frameLength hp)
  have hsample (k : Nat) (hk : k < multiples (factorOf options) (data.length / frameLength hp)) :=
    sampleOf_length (lt_of_lt_multiples hfactorPos hk) hlen
  rw [SpedUp, writesData_iff hsize hwritten, and_iff_right rfl, selectedFrames,
    Lib.flatMap_range_eq_iff_of_length hpos hsample fun k _ => frameBytes_length _ _, SpeedUpFits]
  simp only
  rw [← and_assoc, ← multiples_rounds_iff hfactorPos hfactorMax, eq_comm]
  refine and_congr_right fun hcount => ?_
  rw [hcount]
  refine forall₂_congr fun k hk => ?_
  rw [eq_comm, frameBytes_take_iff hmax (lt_of_lt_multiples hfactorPos hk) hlen, hsample k hk]

theorem spedUp_of_odd :
    let argv := [Lib.ascii "audible", Lib.ascii "-u", Lib.ascii "-f", Lib.ascii "2"]
    Inside 0x4001000000000000 argv [] (monoHeader 2 3) ∧
      SpedUp 0x4001000000000000 argv (headerBytes (monoHeader 2 3) ++ [1, 2, 3]) [1, 2, 3]
        (monoHeader 2 3) := by
  intro argv
  have hvalid : ValidStream (headerBytes (monoHeader 2 3) ++ [1, 2, 3]) (monoHeader 2 3) []
      [1, 2, 3] :=
    ⟨by decide +kernel, by decide, by decide, by decide⟩
  have hargs : validargs argv = (true, 0x4001000000000000) := by decide +kernel
  have hfactor : factorOf 0x4001000000000000 = 2 := by decide
  have hinside : Inside 0x4001000000000000 argv [] (monoHeader 2 3) :=
    ⟨fun _ => ⟨by decide, by decide, by decide⟩, fun hd => absurd (by decide) hd⟩
  refine ⟨hinside, ((spedUp_iff hargs (by decide) hvalid (by decide)).2 hinside).mpr ?_⟩
  unfold SpeedUpFits
  rw [hfactor]
  exact ⟨by decide, by decide, by decide⟩

-- Of two frames only the first one is selected, and the second one is written behind it.
theorem not_spedUp_of_even :
    let argv := [Lib.ascii "audible", Lib.ascii "-u", Lib.ascii "-f", Lib.ascii "2", Lib.ascii "-p"]
    let stream := headerBytes (monoHeader 2 2) ++ [1, 2]
    validargs argv = (true, 0x4801000000000000) ∧ ValidStream stream (monoHeader 2 2) [] [1, 2] ∧
      Inside 0x4801000000000000 argv [] (monoHeader 2 2) ∧
      WritesData 0x4801000000000000 argv stream (monoHeader 2 2) [1, 2] ∧
      selectedFrames (factorOf 0x4801000000000000) 1 2 [1, 2] = [1] ∧
      ¬SpedUp 0x4801000000000000 argv stream [1, 2] (monoHeader 2 2) := by
  intro argv stream
  have hout : recoded 0x4801000000000000 argv stream = some (true,
      headerBytes (outputHeader 0x4801000000000000 (monoHeader 2 2) 24) ++ ([] ++ [1, 2])) := by
    decide +kernel
  have hwrites (data : List Byte) := @writesData_iff _ _ _ _ _ _ _ data _ rfl hout
  refine ⟨by decide +kernel, ⟨by decide +kernel, by decide, by decide, by decide⟩,
    ⟨fun hprepends => absurd hprepends (by decide), fun hd => absurd (by decide) hd⟩, ?_,
    by decide, ?_⟩
  · exact (hwrites _).mpr ⟨rfl, rfl⟩
  · intro hsped
    exact absurd ((hwrites _).mp hsped).2 (by decide)

end CSE320.Audible
