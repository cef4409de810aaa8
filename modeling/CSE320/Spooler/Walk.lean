import CSE320.Spooler.Prompt

namespace CSE320.Spooler

open Lib (ascii)

-- The second run gives what the first one gives, or leaves an array.
def Agrees {α : Type} (y : Except Fault α) (r : α) : Prop := y = .ok r ∨ y = .error .outOfBounds

-- When the first run returns, the states on its way are related, the second one
-- agrees, and when the last state is good the second one ends in it.
def Follows (step : State → State → Prop) (good : State → Prop) (s : State)
    (x y : Except Fault State) : Prop :=
  ∀ r, x = .ok r → step s r ∧ (good r → y = .ok r) ∧ Agrees y r

-- The same for a run with another result.
def FollowsWith {α : Type} (step : State → State → Prop) (good : State → Prop) (s : State)
    (x y : Except Fault (α × State)) : Prop :=
  ∀ a r, x = .ok (a, r) → step s r ∧ (good r → y = .ok (a, r)) ∧ Agrees y (a, r)

def addedConv (data2 convProg : Word) (args : List Word) (n : Node) : Node :=
  if (searchConv n.conv data2).isSome then n
    else { n with conv := n.conv ++ [⟨data2, convProg, args⟩] }

-- What two environments and a relation must satisfy for every run of the program in the
-- first one to be followed in the second one.
structure Walk (env env' : Env) (step : State → State → Prop) (good : State → Prop) : Prop where
  refl : ∀ s, step s s
  trans : ∀ s r t, step s r → step r t → step s t
  back : ∀ s r, step s r → good r → good s
  outcomes : env'.forkResult = env.forkResult ∧ env'.connects = env.connects ∧
    env'.execs = env.execs
  -- printers, jobs and output
  other : ∀ s r, r.list = s.list → r.searches = s.searches → r.forks = s.forks → step s r
  -- a new type, and a new conversion
  type : ∀ s data, searchList s.list.head data = none →
    step s { s with list := { s.list with head := s.list.head ++ [⟨data, false, []⟩] } }
  conversion : ∀ s data1 data2 d1 d2 convProg args, data1 ≠ data2 →
    searchList s.list.head data1 = some d1 →
    searchList s.list.head data2 = some d2 →
    step s { s with list :=
      { s.list with head := s.list.head.modify d1 (addedConv data2 convProg args) } }
  search : ∀ s src dest list, bfs env.inBounds src dest s.list = .ok list →
    let r := { s with list, searches := s.searches ++ [⟨src, dest, s.list⟩] }
    step s r ∧ (good r → bfs env'.inBounds src dest s.list = .ok list) ∧
      Agrees (bfs env'.inBounds src dest s.list) list
  -- fork in the process that goes on, and a new process that returns
  parent : ∀ s, env.forkResult s.forks ≠ .child → step s { s with forks := s.forks + 1 }
  child : ∀ s, env.forkResult s.forks = .child → env.forkResult (s.forks + 1) = .child →
    env.connects (s.forks + 2) = false → step s { s with forks := s.forks + 2 }

section

variable {env env' : Env} {step : State → State → Prop} {good : State → Prop}
  (w : Walk env env' step good) {s : State}

include w

omit w in
theorem Agrees.bind {α β : Type} {y : Except Fault α} {g : α → Except Fault β} {r : α} {t : β}
    (h : Agrees y r) (hrest : Agrees (g r) t) : Agrees (y >>= g) t := by
  rcases h with rfl | rfl
  · exact hrest
  · exact Or.inr rfl

theorem Walk.bind {x y : Except Fault State} {f g : State → Except Fault State}
    (h : Follows step good s x y) (hrest : ∀ r, Follows step good r (f r) (g r)) :
    Follows step good s (x >>= f) (y >>= g) := by
  intro t ht
  obtain ⟨r, hx, hf⟩ := Lib.bind_ok ht
  obtain ⟨hsr, hy, hagrees⟩ := h r hx
  obtain ⟨hrt, hg, hagrees'⟩ := hrest r t hf
  refine ⟨w.trans s r t hsr hrt, fun hgood => ?_, hagrees.bind hagrees'⟩
  rw [hy (w.back r t hrt hgood)]
  exact hg hgood

theorem Walk.bindWith {α : Type} {x y : Except Fault (α × State)}
    {f g : α × State → Except Fault State} (h : FollowsWith step good s x y)
    (hrest : ∀ a r, Follows step good r (f (a, r)) (g (a, r))) :
    Follows step good s (x >>= f) (y >>= g) := by
  intro t ht
  obtain ⟨⟨a, r⟩, hx, hf⟩ := Lib.bind_ok ht
  obtain ⟨hsr, hy, hagrees⟩ := h a r hx
  obtain ⟨hrt, hg, hagrees'⟩ := hrest a r t hf
  refine ⟨w.trans s r t hsr hrt, fun hgood => ?_, hagrees.bind hagrees'⟩
  rw [hy (w.back r t hrt hgood)]
  exact hg hgood

-- A computation that both environments do alike, behind a step.
theorem Walk.after {r : State} (hsr : step s r) {x y : Except Fault State}
    (h : Follows step good r x y) :
    Follows step good s x y := fun t ht =>
  ⟨w.trans s r t hsr (h t ht).1, (h t ht).2.1, (h t ht).2.2⟩

theorem Walk.same {x : Except Fault State}
    (h : ∀ r, x = .ok r → r.list = s.list ∧ r.searches = s.searches ∧ r.forks = s.forks) :
    Follows step good s x x := fun r hr =>
  ⟨w.other s r (h r hr).1 (h r hr).2.1 (h r hr).2.2, fun _ => hr, Or.inl hr⟩

omit w in
theorem follows_error {fault : Fault} {y : Except Fault State} :
    Follows step good s (.error fault) y :=
  fun _ h => nomatch h

theorem Walk.printPrinterStatus (printer : Nat) :
    Follows step good s (printPrinterStatus printer s) (printPrinterStatus printer s) := by
  refine w.same fun r hr => ?_
  unfold Spooler.printPrinterStatus at hr
  split at hr
  · cases hr
  · cases hr
    exact ⟨rfl, rfl, rfl⟩

theorem Walk.changeJobStatus (job : Nat) (status : JobStatus) :
    Follows step good s (changeJobStatus job status s) (changeJobStatus job status s) := by
  refine w.same fun r hr => ?_
  unfold Spooler.changeJobStatus printJobStatus at hr
  simp only at hr
  split at hr
  · cases hr
  · cases hr
    exact ⟨rfl, rfl, rfl⟩

theorem Walk.findBfsLoop (job : Job) (left i : Nat) :
    FollowsWith step good s (findBfsLoop env job left i s) (findBfsLoop env' job left i s) := by
  induction left generalizing i s with
  | zero =>
      intro a r h
      obtain ⟨rfl, rfl⟩ := Prod.mk.inj (Except.ok.inj h)
      exact ⟨w.refl s, fun _ => rfl, Or.inl rfl⟩
  | succ left ih =>
      unfold Spooler.findBfsLoop
      split
      · split
        · exact ih (i + 1)
        · split
          · intro a r h
            cases h
          · rename_i k _ p _
            split
            · intro a r h
              obtain ⟨list, hlist, hrest⟩ := Lib.bind_ok h
              obtain ⟨hstep, hsearch, hagrees⟩ := w.search s job.fileType p.type list hlist
              by_cases hpath : list.result ≠ []
              · rw [if_pos hpath] at hrest
                obtain ⟨rfl, rfl⟩ := Prod.mk.inj (Except.ok.inj hrest)
                refine ⟨hstep, fun hgood => ?_, hagrees.bind ?_⟩
                · rw [hsearch hgood, Lib.ok_bind, if_pos hpath]
                · rw [if_pos hpath]
                  exact Or.inl rfl
              · rw [if_neg hpath] at hrest
                obtain ⟨hnext, hagain, hagrees'⟩ := ih (i + 1) a r hrest
                refine ⟨w.trans _ _ _ hstep hnext, fun hgood => ?_, hagrees.bind ?_⟩
                · rw [hsearch (w.back _ _ hnext hgood), Lib.ok_bind, if_neg hpath]
                  exact hagain hgood
                · rw [if_neg hpath]
                  exact hagrees'
            · exact ih (i + 1)
      · exact ih (i + 1)

theorem Walk.findBfs (job : Job) : FollowsWith step good s (findBfs env job s)
    (findBfs env' job s) :=
  w.findBfsLoop job 32 0

-- The process that goes on does the rest, and a new one returns at most behind a failed connect.
theorem Walk.forked {f f' : State → Except Fault State}
    (hrest : ∀ r, Follows step good r (f r) (f' r)) :
    Follows step good s
      (match fork env s with
        | (pid, r) => match pid with | .child => master env r | _ => f r)
      (match fork env' s with
        | (pid, r) => match pid with | .child => master env' r | _ => f' r) := by
  obtain ⟨hforks, hconnects, hexecs⟩ := w.outcomes
  cases hfork : env.forkResult s.forks with
  | failed error =>
      have hparent := w.parent s (by rw [hfork]; exact fun h => nomatch h)
      simp only [fork, hforks, hfork]
      let r := { s with forks := s.forks + 1 }
      have hnote := w.other r (errorMsgNote "fork error: " error.text "" r) rfl rfl rfl
      exact w.after hparent (w.after hnote (hrest _))
  | parent =>
      have hparent := w.parent s (by rw [hfork]; exact fun h => nomatch h)
      simp only [fork, hforks, hfork]
      exact w.after hparent (hrest _)
  | child =>
      simp only [fork, hforks, hfork, master]
      cases hagain : env.forkResult (s.forks + 1) with
      | failed error => exact follows_error
      | parent => exact follows_error
      | child =>
          simp only [Spooler.child, hconnects, hexecs]
          cases hconnect : env.connects (s.forks + 2) with
          | true =>
              rw [if_pos rfl]
              split
              · exact follows_error
              · exact follows_error
          | false =>
              rw [if_neg Bool.false_ne_true]
              intro r hr
              obtain rfl := Except.ok.inj hr
              exact ⟨w.child s hfork hagain hconnect, fun _ => rfl, Or.inl rfl⟩

theorem Walk.forkConv {f f' : State → Except Fault State}
    (hrest : ∀ r, Follows step good r (f r) (f' r)) (j printer : Nat) :
    Follows step good s (forkConv env f j printer s) (forkConv env' f' j printer s) := by
  unfold Spooler.forkConv
  refine w.after (w.other s (setBusy printer true s) rfl rfl rfl) ?_
  refine w.bind (w.printPrinterStatus printer) fun r => ?_
  let choose (job : Job) : Job := { job with chosenPrinter := some printer }
  let chosen : State := { r with jhead := r.jhead.modify j choose }
  refine w.after (w.other r chosen rfl rfl rfl) (w.bind (w.changeJobStatus j .running) fun t => ?_)
  -- what the process that goes on does behind the fork
  let wait (f : State → Except Fault State) (u : State) : Except Fault State :=
    Spooler.printPrinterStatus printer (setBusy printer false u) >>= fun v =>
      Spooler.changeJobStatus j (if wifexited 0 = exitSuccess then .completed else .aborted) v >>= f
  have hwait (u : State) : Follows step good u (wait f u) (wait f' u) := by
    refine w.after (w.other u (setBusy printer false u) rfl rfl rfl) ?_
    exact w.bind (w.printPrinterStatus printer) fun v => w.bind (w.changeJobStatus j _) hrest
  exact w.forked hwait

theorem Walk.processJobs {f f' : State → Except Fault State}
    (hrest : ∀ r, Follows step good r (f r) (f' r)) (left cursor : Nat) :
    Follows step good s (processJobs env f left cursor s) (processJobs env' f' left cursor s) := by
  induction left generalizing cursor s with
  | zero => exact w.same fun r hr => by cases hr; exact ⟨rfl, rfl, rfl⟩
  | succ left ih =>
      unfold Spooler.processJobs
      split
      · exact w.same fun r hr => by cases hr; exact ⟨rfl, rfl, rfl⟩
      · split
        · refine w.bindWith (w.findBfs _) fun p r => ?_
          cases p with
          | none => exact ih (cursor + 1)
          | some p => exact w.bind (w.forkConv hrest cursor p) fun t => ih (cursor + 1)
        · exact ih (cursor + 1)

theorem Walk.processPrint (depth : Nat) :
    Follows step good s (processPrint env depth s) (processPrint env' depth s) := by
  induction depth generalizing s with
  | zero => exact follows_error
  | succ depth ih => exact w.processJobs (fun r => ih) s.jhead.length 0

theorem Walk.processAll : Follows step good s (processAll env s) (processAll env' s) :=
  w.processPrint _

theorem Walk.with_out (out : List Line) :
    Follows step good s (.ok { s with out }) (.ok { s with out }) :=
  w.same fun r hr => by cases hr; exact ⟨rfl, rfl, rfl⟩

theorem Walk.noArgument (args : List Word) {f : State → State}
    (h : Follows step good s (.ok (f s)) (.ok (f s))) :
    Follows step good s (.ok (noArgument args s f)) (.ok (noArgument args s f)) := by
  unfold Spooler.noArgument
  split
  · exact h
  · exact w.with_out _

theorem Walk.oneArgument (name : String) (args : List Word)
    {f f' : Word → State → Except Fault State}
    (h : ∀ arg1, Follows step good s (f arg1 s) (f' arg1 s)) :
    Follows step good s (oneArgument name args s f) (oneArgument name args s f') := by
  unfold Spooler.oneArgument
  split
  · exact w.with_out _
  · exact h _
  · exact w.with_out _

theorem Walk.addList (data : Word) : Follows step good s (.ok (addList data s))
    (.ok (addList data s)) := by
  unfold Spooler.addList
  split
  · exact w.with_out _
  · rename_i hnew
    intro r hr
    obtain rfl := Except.ok.inj hr
    exact ⟨w.type s data (by simpa using hnew), fun _ => rfl, Or.inl rfl⟩

theorem Walk.addConv (data1 data2 convProg : Word) (args : List Word) :
    step s (addConv data1 data2 convProg args s) := by
  unfold Spooler.addConv
  split
  · exact w.refl s
  · rename_i hne
    split
    · exact w.other _ _ rfl rfl rfl
    · exact w.other _ _ rfl rfl rfl
    · rename_i d1 d2 hd1 hd2
      exact w.conversion s data1 data2 d1 d2 convProg args hne hd1 hd2

omit w in
-- What has been done before a message is a step, and so is the message.
theorem follows_delivered {r : State} (hsr : step s r) :
    Follows step good s (delivered s r) (delivered s r) := by
  intro t ht
  obtain ⟨rfl, -⟩ := delivered_eq_ok.mp ht
  exact ⟨hsr, fun _ => ht, Or.inl ht⟩

theorem Walk.declareConversion (args : List Word) :
    Follows step good s (declareConversion env args s) (declareConversion env' args s) := by
  unfold Spooler.declareConversion
  split
  · exact w.bind (follows_delivered (w.addConv _ _ _ _)) fun r => w.processAll
  · exact w.with_out _

theorem Walk.declarePrinter (args : List Word) :
    Follows step good s (declarePrinter args s) (declarePrinter args s) := by
  refine w.same fun r hr => ?_
  unfold Spooler.declarePrinter at hr
  split at hr
  · split at hr
    · unfold addPrinter Spooler.printPrinterStatus at hr
      split at hr
      · cases hr
      · rename_i status t hadd
        split at hadd
        · cases hadd
        · split at hadd
          · cases hadd
          · cases hadd
            split at hr
            · cases hr
            · cases hr
              exact ⟨rfl, rfl, rfl⟩
    · cases hr
      exact ⟨rfl, rfl, rfl⟩
  · cases hr
    exact ⟨rfl, rfl, rfl⟩
  · cases hr
    exact ⟨rfl, rfl, rfl⟩

theorem Walk.printFile (args : List Word) :
    Follows step good s (printFile env args s) (printFile env' args s) := by
  unfold Spooler.printFile
  split
  · exact w.with_out _
  · rename_i arg1 names
    have hprint : FollowsWith step good s (print arg1 names s) (print arg1 names s) := by
      intro a r hr
      refine ⟨?_, fun _ => hr, Or.inl hr⟩
      rcases print_spec arg1 names s with ⟨out, hnone⟩ | ⟨job, jobId, out, -, -, hsome⟩ | hleft
      · obtain ⟨rfl, rfl⟩ := Prod.mk.inj (Except.ok.inj (hnone.symm.trans hr))
        exact w.other s _ rfl rfl rfl
      · obtain ⟨rfl, rfl⟩ := Prod.mk.inj (Except.ok.inj (hsome.symm.trans hr))
        exact w.other s _ rfl rfl rfl
      · exact nomatch hleft.symm.trans hr
    refine w.bindWith hprint fun newJob r => ?_
    cases newJob with
    | none => exact w.with_out r.out
    | some newJob =>
        simp only
        split
        · exact follows_error
        · rename_i job _
          refine w.bindWith (w.findBfs job) fun p t => ?_
          cases p with
          | none => exact w.with_out t.out
          | some p => exact w.forkConv (fun u => w.processPrint _) newJob p

theorem Walk.onJob (arg1 : Word) {f : Nat → Job → Except Fault State}
    (h : ∀ j job, Follows step good s (f j job) (f j job)) :
    Follows step good s (onJob arg1 s f) (onJob arg1 s f) := by
  unfold Spooler.onJob
  simp only
  split
  · split
    · exact w.with_out _
    · split
      · exact follows_error
      · exact h _ _
  · exact w.with_out _

theorem Walk.cancel (arg1 : Word) : Follows step good s (cancel arg1 s) (cancel arg1 s) :=
  w.onJob arg1 fun j _ => w.changeJobStatus j .aborted

theorem Walk.pause (arg1 : Word) : Follows step good s (pause arg1 s) (pause arg1 s) := by
  refine w.onJob arg1 fun j job => ?_
  split
  · exact w.changeJobStatus j .paused
  · exact w.with_out _

theorem Walk.resume (arg1 : Word) : Follows step good s (resume arg1 s) (resume arg1 s) := by
  refine w.onJob arg1 fun j job => ?_
  split
  · exact w.changeJobStatus j .running
  · exact w.with_out _

theorem Walk.onPrinter (arg1 : Word) {f f' : Nat → Printer → Except Fault State}
    (h : ∀ p printer, Follows step good s (f p printer) (f' p printer)) :
    Follows step good s (onPrinter arg1 s f) (onPrinter arg1 s f') := by
  unfold Spooler.onPrinter
  split
  · exact follows_delivered (w.other s _ rfl rfl rfl)
  · split
    · exact follows_error
    · exact h _ _

theorem Walk.disable (arg1 : Word) : Follows step good s (disable arg1 s) (disable arg1 s) := by
  refine w.onPrinter arg1 fun p printer => ?_
  split
  · exact w.after (w.other s (setEnabled p false s) rfl rfl rfl) (w.printPrinterStatus p)
  · exact w.with_out _

theorem Walk.enable (arg1 : Word) : Follows step good s (enable env arg1 s)
    (enable env' arg1 s) := by
  refine w.onPrinter arg1 fun p printer => ?_
  split
  · refine w.after (w.other s (setEnabled p true s) rfl rfl rfl) ?_
    exact w.bind (w.printPrinterStatus p) fun r => w.processAll
  · exact w.with_out _

omit w in
theorem follows_ite {p : Prop} [Decidable p] {x y x' y' : Except Fault State}
    (h : p → Follows step good s x x') (hnot : ¬p → Follows step good s y y') :
    Follows step good s (if p then x else y) (if p then x' else y') := by
  split
  · exact h ‹_›
  · exact hnot ‹_›

theorem Walk.command (token : Word) (args : List Word) :
    Follows step good s (command env token args s) (command env' token args s) := by
  unfold Spooler.command
  refine follows_ite (fun _ => w.noArgument args (w.with_out _)) fun _ => ?_
  refine follows_ite (fun _ => w.oneArgument _ args w.addList) fun _ => ?_
  refine follows_ite (fun _ => w.declarePrinter args) fun _ => ?_
  refine follows_ite (fun _ => w.declareConversion args) fun _ => ?_
  refine follows_ite (fun _ => w.noArgument args ?_) fun _ => ?_
  · unfold printPrinter
    split
    · exact w.with_out _
    · exact w.with_out _
  refine follows_ite (fun _ => w.noArgument args ?_) fun _ => ?_
  · unfold printJob
    split
    · exact w.with_out _
    · exact w.with_out _
  refine follows_ite (fun _ => w.printFile args) fun _ => ?_
  refine follows_ite (fun _ => w.oneArgument _ args w.cancel) fun _ => ?_
  refine follows_ite (fun _ => w.oneArgument _ args w.pause) fun _ => ?_
  refine follows_ite (fun _ => w.oneArgument _ args w.resume) fun _ => ?_
  refine follows_ite (fun _ => w.oneArgument _ args w.disable) fun _ => ?_
  refine follows_ite (fun _ => w.oneArgument _ args w.enable) fun _ => ?_
  exact follows_delivered (w.other s _ rfl rfl rfl)

theorem Walk.interactiveMode (words : List Word) :
    FollowsWith step good s (interactiveMode env words s) (interactiveMode env' words s) := by
  intro more r h
  unfold Spooler.interactiveMode at h ⊢
  split at h
  · obtain ⟨rfl, rfl⟩ := Prod.mk.inj (Except.ok.inj h)
    exact ⟨w.refl s, fun _ => rfl, Or.inl rfl⟩
  · rename_i token args
    by_cases hquit : token = ascii "quit"
    · rw [if_pos hquit] at h
      simp only [if_pos hquit]
      split at h
      · rename_i hargs
        obtain ⟨rfl, rfl⟩ := Prod.mk.inj (Except.ok.inj h)
        rw [if_pos hargs]
        exact ⟨w.refl s, fun _ => rfl, Or.inl rfl⟩
      · rename_i hargs
        obtain ⟨rfl, rfl⟩ := Prod.mk.inj (Except.ok.inj h)
        rw [if_neg hargs]
        exact ⟨w.other s _ rfl rfl rfl, fun _ => rfl, Or.inl rfl⟩
    · rw [if_neg hquit] at h
      obtain ⟨t, hcommand, hrest⟩ := Lib.bind_ok h
      obtain ⟨rfl, rfl⟩ := Prod.mk.inj (Except.ok.inj hrest)
      obtain ⟨hstep, hsame, hagrees⟩ := w.command token args t hcommand
      simp only [if_neg hquit]
      refine ⟨hstep, fun hgood => ?_, hagrees.bind (Or.inl rfl)⟩
      rw [hsame hgood, Lib.ok_bind]

-- Every session of the first environment is followed in the second one.
theorem Walk.session (commands : List (List Word)) :
    Follows step good s (session env commands s) (session env' commands s) := by
  induction commands generalizing s with
  | nil => exact w.with_out s.out
  | cons words commands ih =>
      refine w.bindWith (w.interactiveMode words) fun more r => ?_
      cases more with
      | false => exact w.with_out r.out
      | true => exact ih

end

end CSE320.Spooler
