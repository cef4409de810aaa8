import CSE320.Sfmm.Payload

namespace CSE320.Sfmm

variable {env : Sfutil} {s s' : State} {blocks pre post : List Blk} {epi : Info}
  {lists : List SizeList} {l : SizeList} {b : Blk} {x p size : Nat}

-- A word that the client can store to.
def Payload (env : Sfutil) (blocks : List Blk) (w : Nat) : Prop :=
  ∃ y c, At (firstBlock env) blocks y c ∧ c.info.allocated = true ∧ y < w ∧ w < y + c.size

theorem samePayloads_of (h : ∀ w, s'.mem w ≠ s.mem w → ¬Payload env blocks w) :
    SamePayloads env blocks s s' := by
  intro y c hc halloc w hlow hhigh
  by_contra hne
  exact h w hne ⟨y, c, hc, halloc, hlow, hhigh⟩

theorem SamePayloads.write {a v : Nat} (h : SamePayloads env blocks s s')
    (ha : ¬Payload env blocks a) : SamePayloads env blocks s (s'.write a v) := by
  refine h.trans (samePayloads_of fun w hw => ?_)
  by_cases hwa : w = a
  · rw [hwa]
    exact ha
  · exact absurd (State.mem_write_ne s' hwa) hw

theorem SamePayloads.setInfo {a : Nat} {f : Info → Info} (h : SamePayloads env blocks s s')
    (ha : ¬Payload env blocks a) : SamePayloads env blocks s (s'.setInfo a f) :=
  h.write ha

section

variable (ht : Tiled env s blocks epi)

include ht

theorem Tiled.header_notPayload (hx : At (firstBlock env) blocks x b) : ¬Payload env blocks x := by
  rintro ⟨y, c, hc, -, hlow, hhigh⟩
  have hb := ht.bounds hx
  obtain ⟨rfl, -⟩ := hx.unique hc (w := x) (by omega) (by omega)
  omega

omit ht in
theorem free_notPayload {w : Nat} (hx : At (firstBlock env) blocks x b)
    (hfree : b.info.allocated = false) (hin : x ≤ w ∧ w < x + b.size) :
    ¬Payload env blocks w := by
  rintro ⟨y, c, hc, halloc, hlow, hhigh⟩
  obtain ⟨-, rfl⟩ := hx.unique hc (w := w) (by omega) (by omega)
  rw [hfree] at halloc
  cases halloc

theorem Tiled.epilogue_notPayload : ¬Payload env blocks (env.memStart + 4088) := by
  rintro ⟨y, c, hc, -, hlow, hhigh⟩
  have hb := ht.bounds hc
  omega

theorem Tiled.slot_notPayload (hdoc : Documented env) (k : Nat) {i : Nat} (hi : i < 48) :
    ¬Payload env blocks (env.slot k + i) := by
  rintro ⟨y, c, hc, -, hlow, hhigh⟩
  have hb := ht.bounds hc
  have haway := hdoc.slotAway k
  omega

end

-- A free block that is handed out whole.
theorem exactFit_payloads (hdoc : Documented env) (h : Shows env s (pre ++ b :: post) epi lists [])
    (hx : x = firstBlock env + total pre) (hl : l ∈ lists) {rest : List Nat}
    (hm : l.members = x :: rest) (size : Nat) :
    SamePayloads env (pre ++ b :: post) s (exactFit s size l.size l.node).2 := by
  have hat := at_middle (firstBlock env) pre post b
  rw [← hx] at hat
  have hfree := ((h.free x l.size).mp ⟨l, hl, by simp [hm], rfl⟩).1
  obtain ⟨_, -, -, -, hunlink⟩ := h.unlink hdoc hfree List.not_mem_nil
  rw [exactFit_eq hdoc h hx hl hm size]
  have hhead := hunlink.setInfo (f := taken size l.size) (h.tiled.header_notPayload hat)
  cases rest with
  | nil => exact hhead.setInfo h.tiled.epilogue_notPayload
  | cons y rest =>
      obtain ⟨⟨c, hc, -⟩, -⟩ := (h.free y l.size).mp ⟨l, hl, by simp [hm], rfl⟩
      exact hhead.setInfo (h.tiled.header_notPayload hc)

theorem cutBlock_payloads (hdoc : Documented env) (h : Shows env s (pre ++ b :: post) epi lists [])
    (hx : x = firstBlock env + total pre) (hfree : b.info.allocated = false) (size : Nat)
    (hp : 0 < p) (hle : p + 32 ≤ b.size) :
    SamePayloads env (pre ++ b :: post) s (cutBlock env s size p x) := by
  have hat := at_middle (firstBlock env) pre post b
  rw [← hx] at hat
  obtain ⟨_, hunlinked, -, -, hunlink⟩ := h.unlink hdoc ⟨b, hat, hfree, rfl⟩ List.not_mem_nil
  obtain ⟨-, -, hsame, -⟩ :=
    cutTags_spec env size (hunlinked.tiled.header x b hat) (n := b.size) rfl hp hle
  refine hunlink.trans (samePayloads_of fun w hw => free_notPayload hat hfree ?_)
  by_contra hout
  exact hw (hsame w (by omega))

-- A larger one: its front is handed out and the rest is linked into a list.
theorem splitBlock_payloads (hdoc : Documented env)
    (h : Shows env s (pre ++ b :: post) epi lists []) (hx : x = firstBlock env + total pre)
    (hl : l ∈ lists) {rest : List Nat} (hm : l.members = x :: rest) (size : Nat)
    (hp : 32 ≤ p) (hmod : p % 16 = 0) (hle : p + 32 ≤ l.size) {ptr : Nat}
    (hrun : splitBlock env s size p l.node = .ok (ptr, s')) :
    SamePayloads env (pre ++ b :: post) s s' := by
  have hxmem : x ∈ l.members := by simp [hm]
  have hat := at_middle (firstBlock env) pre post b
  rw [← hx] at hat
  obtain ⟨hsize, hfree⟩ := h.member hat hl hxmem
  have hbound := h.tiled.bounds hat
  have hnext : s.linkNext (head l.node) = x := by
    have hring := h.listed.ring l hl
    rw [hm] at hring
    exact hring.next_head rfl
  have htags := cutBlock_payloads hdoc h hx hfree size (by omega) (hsize ▸ hle)
  obtain ⟨a, r, lists', hcut, hlabel, hr, hr', hnodes, -⟩ :=
    cutBlock_spec size hdoc h hx hfree hp hmod (hsize ▸ hle)
  have ha : a.size = p := congrArg Prod.fst hlabel
  have hkeeps : ∀ y, KeepsLabels env y (pre ++ b :: post) (pre ++ a :: r :: post) := by
    refine (delivers_of a [r] hx hfree (by simp) ?_ hlabel).keeps
    simp only [total_cons, total_nil, ha, hr]
    omega
  have hrat : At (firstBlock env) (pre ++ a :: r :: post) (x + p) r := by
    have hsecond := at_second (firstBlock env) pre post a r
    rwa [← hx, ha] at hsecond
  have hrest : FreeAt env (pre ++ a :: r :: post) (x + p) (l.size - p) :=
    ⟨r, hrat, hr', by rw [hr, hsize]⟩
  have hnode : (cutBlock env s size p x).nodeSize l.node = l.size := by
    obtain ⟨l', hl', he⟩ : ∃ l' ∈ lists', (l'.node, l'.size) = (l.node, l.size) := by
      have hmem : (l.node, l.size) ∈ lists'.map (fun l => (l.node, l.size)) := by
        rw [hnodes]
        exact List.mem_map.mpr ⟨l, hl, rfl⟩
      exact List.mem_map.mp hmem
    simp only [Prod.mk.injEq] at he
    rw [← he.1, hcut.listed.nodeSizes l' hl', he.2]
  have hfind : findSize _ (l.size - p) _ _ = _ :=
    hcut.listed.findSize hcut.pos (List.nil_append lists').symm
      (show lists'.length < (cutBlock env s size p x).nodes +
        1 by rw [hcut.listed.nodeCount]; omega)
  rw [splitBlock] at hrun
  simp only [hnext, hnode, subSize_eq (show p ≤ l.size by omega) (show l.size < 2 ^ 64 by omega),
    hcut.listed.nodeNext_head] at hrun
  rw [hfind, Lib.ok_bind] at hrun
  refine htags.trans (SamePayloads.of_keeps ?_ hkeeps)
  cases hknown : lists'.find? (·.size = l.size - p) with
  | some c =>
      rw [hknown] at hrun
      obtain ⟨hc, first, second, rfl, -⟩ := List.find?_eq_some_iff_append.mp hknown
      obtain ⟨-, hrel⟩ := hcut.listed.linkFront hdoc (hcut.tiled.inHeap hdoc hrat) hcut.not_member
      obtain ⟨-, rfl⟩ := Prod.mk.inj (Except.ok.inj hrun)
      exact hrel.samePayloads hdoc hcut.tiled fun u hu => hcut.pushed_owner hrest hu
  | none =>
      have hcut' : Shows env (cutBlock env s size p x) (pre ++ a :: r :: post) epi
          (lists' ++ []) [x + p] := by
        rw [List.append_nil]
        exact hcut
      obtain ⟨s₁, node, hadd, hadded, hkept⟩ :=
        Shows.add hdoc hcut' (show 32 ≤ l.size - p by omega)
      rw [hknown] at hrun
      simp only [Option.map_none, hcut.listed.nodeNext_last] at hrun
      rw [show firstNode env [] = env.slot 0 from rfl] at hadd
      rw [hadd] at hrun
      obtain ⟨-, rfl⟩ := Prod.mk.inj (Except.ok.inj hrun)
      -- the links of the new list, and its head
      obtain ⟨k, -, -, rfl⟩ := hadded.listed.nodeSlots _ (mem_middle.mpr (Or.inl rfl))
      have hslot (i : Nat) (hi : i < 40) :
          ¬Payload env (pre ++ a :: r :: post) (head (env.slot k) + i) := by
        rw [head, Nat.add_assoc]
        exact hcut.tiled.slot_notPayload hdoc k (by omega)
      have hlink (i : Nat) (hi : i < 32) : ¬Payload env (pre ++ a :: r :: post) (x + p + i) :=
        free_notPayload hrat hr' (by omega)
      exact ((((hkept.samePayloads hcut.tiled).write (hslot 8 (by omega))).write
        (hslot 16 (by omega))).write (hlink 16 (by omega))).write (hlink 8 (by omega)) |>.setInfo
        (hslot 0 (by omega))

-- sf_malloc, once the heap is there.
theorem allocate_payloads (hdoc : Documented env) (h : Shows env s blocks epi lists [])
    (hsize : size ≤ 2 ^ 64 - 24) (hfit : FitOk env s size) {ptr : Nat}
    (hrun : allocate env s size = .ok (ptr, s')) : SamePayloads env blocks s s' := by
  obtain ⟨hmin, hmod, -, -⟩ := padding_spec hsize
  obtain ⟨fit, hsearch, hfound⟩ := h.fit hdoc size
  simp only [FitOk, hsearch] at hfit
  rw [fitOf] at hsearch
  rw [allocate, hsearch, Lib.ok_bind] at hrun
  cases fit with
  | exact node =>
      obtain ⟨l, hl, rfl, hlsize, hne⟩ := hfound
      obtain ⟨_, rest, pre, b, post, hm, rfl, rfl, hb, hfree⟩ := h.first_member hl hne
      have hsame := exactFit_payloads hdoc h rfl hl hm size
      rw [hlsize] at hsame
      obtain rfl : _ = s' := congrArg Prod.snd (Except.ok.inj hrun)
      exact hsame
  | best node =>
      obtain ⟨l, hl, rfl, -, hne⟩ := hfound
      obtain ⟨_, rest, pre, b, post, hm, rfl, rfl, hb, hfree⟩ := h.first_member hl hne
      have hle : padding size + 32 ≤ l.size := by
        rw [← h.listed.nodeSizes l hl]
        exact hfit
      exact splitBlock_payloads hdoc h rfl hl hm size hmin hmod hle hrun
  | none =>
      simp only [extendHeap_fails size hfit.1 hfit.2] at hrun
      obtain ⟨-, rfl⟩ := Prod.mk.inj (Except.ok.inj hrun)
      exact samePayloads_of fun w hw => absurd rfl hw

-- The tags that put_into_free writes: those of the block, and the two ends of the next
-- one, of which the client of an allocation knows nothing.
theorem markFree_mem (h : Shows env s (pre ++ b :: post) epi lists [])
    (hx : x = firstBlock env + total pre) {n : Nat} (hn : (s.info (x + b.size)).size = n) :
    (∀ w, (w < x ∨ x + b.size < w) → w ≠ x + b.size + n - 8 → w ≠ env.memStart + 4088 →
      (markFree s x).mem w = s.mem w) ∧
    (32 ≤ n → (markFree s x).mem (x + b.size + n - 8) =
      ((s.info (x + b.size + n - 8)).setPrev false).toWord) := by
  have hat := at_middle (firstBlock env) pre post b
  rw [← hx] at hat
  have hinfo := h.tiled.header x b hat
  have hb := h.tiled.bounds hat
  have hbsize : b.info.size = b.size := rfl
  have heq : markFree s x = (((s.setInfo x freedInfo).setInfo (x + b.size - 8)
      (fun _ => (freed b).foot)).setInfo (x + b.size) (Info.setPrev false)).setInfo
      (footOf s (x + b.size)) (Info.setPrev false) := by
    rw [markFree, hinfo, hbsize, State.info_setInfo_self, hinfo]
    rfl
  rw [heq, footOf, hn]
  refine ⟨fun w hw hfoot hepi => ?_, fun hmin => ?_⟩
  · have hout : w ≠ if n ≠ 0 then x + b.size + n - 8 else s.memEnd - 8 := by
      split
      · exact hfoot
      · rw [h.memEnd]
        exact hepi
    rw [State.mem_setInfo_ne _ _ hout, State.mem_setInfo_ne _ _ (by omega),
      State.mem_setInfo_ne _ _ (by omega), State.mem_setInfo_ne _ _ (by omega)]
  · rw [if_pos (by omega), State.setInfo, State.write]
    simp (disch := omega) only [State.info_setInfo_ne, if_true]

-- Behind them sf_free writes no word of a payload.
theorem sfFree_payloads (hdoc : Documented env) (h : Shows env s (pre ++ b :: post) epi lists [])
    (hx : x = firstBlock env + total pre) (halloc : b.info.allocated = true)
    (hok : FreeOk env s (x + 8)) (hrun : sfFree env s (x + 8) = .ok s') :
    SamePayloads env (pre ++ freed b :: markNext false post) (markFree s x) s' := by
  have hat := at_middle (firstBlock env) pre post b
  rw [← hx] at hat
  have hb := h.tiled.sized b (by simp)
  have hbsize : b.info.size = b.size := rfl
  obtain ⟨hroom, hroomNext⟩ := hok
  rw [Nat.add_sub_cancel, h.tiled.header x b hat, hbsize] at hroom hroomNext
  have hmark := markFree_spec hdoc h hx halloc
  have hat₁ := at_middle (firstBlock env) pre (markNext false post) (freed b)
  rw [← hx] at hat₁
  obtain ⟨s₁, lists₁, hins, h₁, hinserted, hsame⟩ := hmark.insert hdoc (linksNew_linkFront hdoc)
    ⟨_, hat₁, rfl, rfl⟩ List.not_mem_nil (h.roomy hdoc (show 0 < b.size by omega) hroom)
    ((markFree s x).nodePrev ((markFree s x).nodeNext (env.slot 0)))
  have hput : putIntoFree env s (x + 8) = .ok s₁ := by
    rw [putIntoFree, Nat.add_sub_cancel, hmark.tiled.header x _ hat₁]
    exact hins
  have hinfo : (s₁.info x).size = b.size := by rw [h₁.tiled.header x _ hat₁]; rfl
  have hbit := h₁.link_bit hdoc ⟨_, hat₁, rfl, rfl⟩
  have hvalid : checkPtr env s (x + 8) = .valid := by
    cases hcheck : checkPtr env s (x + 8) with
    | valid => rfl
    | invalid => simp [sfFree, validPtr, hcheck] at hrun
    | oversized => simp [sfFree, validPtr, hcheck] at hrun
  rw [sfFree, validPtr, hvalid] at hrun
  simp only [Lib.ok_bind, hput, hbit, Nat.add_sub_cancel, hinfo, Bool.false_eq_true,
    false_and, if_false, Lib.pure_eq_ok] at hrun
  split at hrun
  · rename_i hmerge
    cases post with
    | nil =>
        have hinfo₁ : s₁.info (x + b.size) = _ := hx ▸ h₁.tiled.info_behind
        rw [hinfo₁, markNext, nextInfo, h₁.closed.1] at hmerge
        cases hmerge.1
    | cons c rest =>
        have hcat : At (firstBlock env) (pre ++ b :: c :: rest) (x + b.size) c :=
          hx ▸ at_second _ pre rest b c
        have hcb := h.tiled.bounds hcat
        have hnext : s.info (x + b.size) = nextInfo (c :: rest) epi := hx ▸ h.tiled.info_behind
        have hnext₁ : s₁.info (x + b.size) =
            nextInfo (markNext false (c :: rest)) (markEpilogue false (c :: rest) epi) :=
          hx ▸ h₁.tiled.info_behind
        have hcfree : c.info.allocated = false := by
          rw [hnext₁] at hmerge
          exact hmerge.1
        have hcsize : (s₁.info (x + b.size)).size = c.size := by rw [hnext₁]; rfl
        have hfoot : footOf s₁ (x + b.size) = x + b.size + c.size - 8 := by
          rw [footOf, hcsize, if_pos (by omega)]
        rw [nextInfo] at hnext
        rw [hnext] at hroomNext
        have hroom' :=
          (h.roomy hdoc (show 0 < b.size + c.size by omega) (hroomNext hcfree)).of_above
          (hinserted.above _ (show b.size < b.size + c.size by omega))
        obtain ⟨s₂, _, hcoalesce, -, -, hsame₂⟩ := coalesce_spec hdoc h₁ hx rfl hcfree hroom'
        rw [hfoot] at hrun
        obtain rfl := Except.ok.inj (hcoalesce.symm.trans hrun)
        exact hsame.trans hsame₂
  · obtain rfl := Except.ok.inj hrun
    exact hsame

end CSE320.Sfmm
