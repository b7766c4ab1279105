import Dogee.CheckpointCrash

/-!
# What a checkpoint is a picture of

The slaves dump before the first inner barrier, when other threads may still be computing. A
file is what a dump in one step would write as long as nothing that it covers changes while it
is written. Under that condition the files of a checkpoint are a picture of the shared memory
at one instant: when the master's dump ends, every thread is in `Enter`, and nothing has changed
since the slaves dumped.
-/

namespace Dogee.Checkpoint

open Transition

/-! ## Dumps in one step -/

/-- All that is written, when nothing else happens. -/
def emit (d : Dsm) (junk : ObjectKey → Word × Word) (p : Process) : Nat → List Task → Option (List Byte)
  | _, [] => some []
  | 0, _ :: _ => none
  | n + 1, t :: rest => (emit d junk p n ((t.step d junk p).2 ++ rest)).map ((t.step d junk p).1 ++ ·)

section Emit

variable {d : Dsm} {junk : ObjectKey → Word × Word} {p : Process} {out : List Byte} {n : Nat}

theorem emit_nil (n : Nat) : emit d junk p n [] = some [] := by
  cases n <;> rfl

/-- The tasks of a list are done one after another. -/
theorem emit_append {as bs : List Task} (h : emit d junk p n (as ++ bs) = some out) :
    ∃ o₁ o₂ m, m ≤ n ∧ emit d junk p n as = some o₁ ∧ emit d junk p m bs = some o₂ ∧ out = o₁ ++ o₂ := by
  induction n generalizing as out with
  | zero =>
      cases as with
      | nil => exact ⟨[], out, 0, Nat.le_refl 0, emit_nil 0, h, rfl⟩
      | cons t as => cases h
  | succ n ih =>
      cases as with
      | nil => exact ⟨[], out, n + 1, Nat.le_refl _, emit_nil _, h, rfl⟩
      | cons t as =>
          rw [List.cons_append, emit] at h
          obtain ⟨o, ho, rfl⟩ := Option.map_eq_some_iff.mp h
          rw [← List.append_assoc] at ho
          obtain ⟨o₁, o₂, m, hm, h₁, h₂, rfl⟩ := ih ho
          refine ⟨(t.step d junk p).1 ++ o₁, o₂, m, Nat.le_succ_of_le hm, ?_, h₂, ?_⟩
          · rw [emit, h₁]
            rfl
          · exact (List.append_assoc ..).symm

theorem emit_words {key i size : Nat}
    (h : emit d junk p n ((List.range size).map fun j => Task.word key (i + j)) = some out) :
    out = writeWords (d.words.read key i size) := by
  have hwords : ∀ (l : List Nat) (n : Nat) (out : List Byte),
      emit d junk p n (l.map fun j => Task.word key (i + j)) = some out →
        out = l.flatMap fun j => writeWord (d.words key (i + j)) := by
    intro l
    induction l with
    | nil =>
        intro n out h
        rw [List.map_nil, emit_nil] at h
        exact (Option.some.inj h).symm
    | cons j l ih =>
        intro n out h
        cases n with
        | zero => cases h
        | succ n =>
            obtain ⟨o, ho, rfl⟩ := Option.map_eq_some_iff.mp h
            rw [ih n o ho]
            rfl
  rw [hwords _ n out h, writeWords, Memory.read, List.flatMap_map]

/-- The loop over the chunks of an object. -/
theorem emit_chunk {key size i : Nat} (h : emit d junk p n [.chunk key size i] = some out) :
    ∃ fuel, dumpWords d.words key size fuel i = some out := by
  induction n using Nat.strong_induction_on generalizing i out with
  | h n ih =>
      cases n with
      | zero => cases h
      | succ n =>
          obtain ⟨o, ho, rfl⟩ := Option.map_eq_some_iff.mp h
          rw [Task.step] at ho ⊢
          split at ho
          · rename_i hi
            rw [List.append_nil] at ho
            obtain ⟨o₁, o₂, m, hm, h₁, h₂, rfl⟩ := emit_append ho
            obtain ⟨fuel, hfuel⟩ := ih m (Nat.lt_succ_of_le hm) h₂
            refine ⟨fuel + 1, ?_⟩
            rw [dumpWords, if_pos hi, hfuel, if_pos hi, emit_words h₁]
            rfl
          · rename_i hi
            rw [List.append_nil, emit_nil] at ho
            obtain rfl := Option.some.inj ho
            refine ⟨1, ?_⟩
            rw [dumpWords, if_neg hi, if_neg hi]
            rfl

/-- One object. -/
theorem emit_dump {h : Header} (hemit : emit d junk p n [.dump h] = some out) :
    dumpSharedMemory enough d.words h = some out := by
  cases n with
  | zero => cases hemit
  | succ n =>
      obtain ⟨o, ho, rfl⟩ := Option.map_eq_some_iff.mp hemit
      obtain ⟨fuel, hfuel⟩ := emit_chunk ho
      have hdump : dumpSharedMemory fuel d.words h =
          some (writeWord h.key ++ writeWord h.size ++ writeWord h.flag ++ o) := by
        rw [dumpSharedMemory, hfuel]
        rfl
      have hsize := dumpSharedMemory_size hdump
      obtain ⟨bytes, hbytes⟩ := dumpSharedMemory_isSome d.words hsize
      obtain ⟨words, hwords, heq⟩ := Option.bind_eq_some_iff.mp hbytes
      rw [hbytes, ← Option.some.inj heq, dumpWords_some hsize hwords, dumpWords_some hsize hfuel]
      rfl

/-- The objects of a list. -/
theorem emit_objects {keys : List ObjectKey} (h : emit d junk p n (keys.map .object) = some out) :
    dumpObjects enough d junk keys = some out := by
  induction keys generalizing n out with
  | nil =>
      rw [List.map_nil, emit_nil] at h
      exact h
  | cons key keys ih =>
      cases n with
      | zero => cases h
      | succ n =>
          obtain ⟨o, ho, rfl⟩ := Option.map_eq_some_iff.mp h
          obtain ⟨o₁, o₂, m, -, h₁, h₂, rfl⟩ := emit_append ho
          have hone := emit_dump h₁
          rw [headerOf] at hone
          rw [dumpObjects]
          simp only [hone, ih h₂, Option.bind_eq_bind, Option.bind_some]
          rfl

/-- A task that leaves nothing to do. -/
theorem emit_last {t : Task} {o : List Byte} (h : emit d junk p n [t] = some out)
    (hstep : t.step d junk p = (o, [])) : out = o := by
  cases n with
  | zero => cases h
  | succ n =>
      rw [emit, hstep] at h
      obtain ⟨o', ho', rfl⟩ := Option.map_eq_some_iff.mp h
      rw [List.nil_append, emit_nil] at ho'
      rw [← Option.some.inj ho', List.append_nil]

theorem emit_forEachObject (h : emit d junk p n [.forEachObject] = some out) :
    dumpObjects enough d junk (p.objectList.sort (· ≤ ·)) = some out := by
  cases n with
  | zero => cases h
  | succ n =>
      obtain ⟨o, ho, rfl⟩ := Option.map_eq_some_iff.mp h
      rw [List.append_nil] at ho
      obtain ⟨o₁, o₂, m, -, h₁, h₂, rfl⟩ := emit_append ho
      rw [emit_last h₂ rfl, List.append_nil]
      exact emit_objects h₁

/-- The tasks of `DoCheckPoint` write its file. -/
theorem emit_tasks {isMaster : Bool} {fid : Nat} (h : emit d junk p n (tasks isMaster fid) = some out) :
    doCheckPoint enough isMaster fid d junk p = some out := by
  obtain ⟨statics, rest, m, -, hstatics, hrest, rfl⟩ := emit_append h
  have hdump : dumpStatics enough isMaster fid d.words = some statics := by
    cases isMaster with
    | false =>
        rw [if_neg Bool.false_ne_true, emit_nil] at hstatics
        exact hstatics
    | true => exact emit_dump hstatics
  obtain ⟨count, rest', m', -, hcount, hrest', rfl⟩ := @emit_append _ _ _ _ _ [.count] _ hrest
  obtain ⟨objects, members, m'', -, hobjects, hmembers, rfl⟩ :=
    @emit_append _ _ _ _ _ [.forEachObject] _ hrest'
  rw [emit_last hcount rfl, emit_last hmembers rfl, doCheckPoint, hdump]
  simp only [emit_forEachObject hobjects, Option.bind_eq_bind, Option.bind_some]
  rfl

/-- A task that reads only objects of the list. -/
def Task.Within (l : Finset ObjectKey) : Task → Prop
  | .dump h => ∃ k ∈ l, h.key = UInt32.ofNat k
  | .chunk key _ _ | .word key _ => ∃ k ∈ l, key = (UInt32.ofNat k).toNat
  | .object key => key ∈ l
  | _ => True

/-- Two memories with the same objects of the list. -/
def Agree (l : Finset ObjectKey) (d d' : Dsm) : Prop :=
  ∀ k ∈ l, d.info k = d'.info k ∧ d.words (UInt32.ofNat k).toNat = d'.words (UInt32.ofNat k).toNat

/-- A task does the same on both. -/
theorem Task.step_congr {d' : Dsm} (h : Agree p.objectList d d') {t : Task} (ht : t.Within p.objectList) :
    t.step d junk p = t.step d' junk p := by
  cases t with
  | word key i =>
      obtain ⟨k, hk, rfl⟩ := ht
      show (writeWord _, []) = (writeWord _, [])
      rw [(h k hk).2]
  | object key =>
      show ([], [Task.dump _]) = ([], [Task.dump _])
      rw [headerOf, headerOf, (h key ht).1]
  | _ => rfl

/-- What is left to do stays within the list. -/
theorem Task.within_step {t : Task} (ht : t.Within p.objectList) :
    ∀ t' ∈ (t.step d junk p).2, t'.Within p.objectList := by
  intro t' ht'
  cases t with
  | dump h =>
      obtain ⟨k, hk, heq⟩ := ht
      rw [List.mem_singleton.mp ht', heq]
      exact ⟨k, hk, rfl⟩
  | chunk key size i =>
      obtain ⟨k, hk, rfl⟩ := ht
      rw [Task.step] at ht'
      split at ht'
      · rcases List.mem_append.mp ht' with ht' | ht'
        · obtain ⟨j, -, rfl⟩ := List.mem_map.mp ht'
          exact ⟨k, hk, rfl⟩
        · rw [List.mem_singleton.mp ht']
          exact ⟨k, hk, rfl⟩
      · cases ht'
  | forEachObject =>
      rcases List.mem_append.mp ht' with ht' | ht'
      · obtain ⟨key, hkey, rfl⟩ := List.mem_map.mp ht'
        exact (Finset.mem_sort _).mp hkey
      · rw [List.mem_singleton.mp ht']
        trivial
  | object key =>
      rw [List.mem_singleton.mp ht']
      exact ⟨key, ht, rfl⟩
  | word _ _ | count | unlock | members => cases ht'

theorem emit_congr {d' : Dsm} (h : Agree p.objectList d d') {ts : List Task}
    (hts : ∀ t ∈ ts, t.Within p.objectList) : emit d junk p n ts = emit d' junk p n ts := by
  induction n generalizing ts with
  | zero => cases ts <;> rfl
  | succ n ih =>
      cases ts with
      | nil => rfl
      | cons t ts =>
          have ht := hts t List.mem_cons_self
          rw [emit, emit, ← Task.step_congr h ht, ih]
          intro t' ht'
          rcases List.mem_append.mp ht' with ht' | ht'
          · exact Task.within_step ht t' ht'
          · exact hts t' (List.mem_cons_of_mem _ ht')

/-- The tasks of a slave read only objects of its list. -/
theorem tasks_within (l : Finset ObjectKey) (fid : Nat) : ∀ t ∈ tasks false fid, t.Within l := by
  intro t ht
  rcases List.mem_cons.mp ht with rfl | ht
  · trivial
  · rcases List.mem_cons.mp ht with rfl | ht
    · trivial
    · rw [List.mem_singleton.mp ht]
      trivial

end Emit

/-! ## The files of a round -/

section Content

variable {g : Group} {P P' : Procs g} {disk disk' : Disk} {p : Fin (g.slaves + 1)} {pt : Part}
  {out : List Byte}

/-- A dump in one step writes `out`. -/
def Written (P : Procs g) (p : Fin (g.slaves + 1)) (out : List Byte) : Prop :=
  ∃ n, emit P.dsm (g.junk (g.node p)) (P.process (g.node p)) n (tasks (p = 0) g.cluster.fid) = some out

/-- What a dump has written, and what it writes when nothing changes. -/
def StageContent (P : Procs g) (p : Fin (g.slaves + 1)) : Stage → Prop
  | .opening => True
  | .writing out todo =>
      (∀ n rest, emit P.dsm (g.junk (g.node p)) (P.process (g.node p)) n todo = some rest →
        Written P p (out ++ rest)) ∧
      (p ≠ 0 → ∀ t ∈ todo, t.Within (P.process (g.node p)).objectList)
  | .masterOpened out | .removing out | .counting out | .closing out => Written P p out

/-- The file of a node is what a dump in one step writes. -/
def FileOf (disk : Disk) (P : Procs g) (p : Fin (g.slaves + 1)) (c : Nat) : Prop :=
  ∃ out, disk.file (g.node p) c = .closed out ∧ Written P p out

theorem FileOf.frame {c : Nat} (h : FileOf disk P p c) (hdsm : P'.dsm = P.dsm)
    (hprocess : P'.process = P.process) (hfile : disk'.file (g.node p) = disk.file (g.node p)) :
    FileOf disk' P' p c := by
  simp only [FileOf, Written, hdsm, hprocess, hfile] at h ⊢
  exact h

theorem StageContent.frame {stage : Stage} (h : StageContent P p stage) (hdsm : P'.dsm = P.dsm)
    (hprocess : P'.process = P.process) : StageContent P' p stage := by
  cases stage <;> simp only [StageContent, Written, hdsm, hprocess] at h ⊢ <;> exact h

/-- A thread that has dumped and has not let go of the lock. -/
def Pc.holds (isMaster : Bool) : Pc → Bool
  | .arrive1 needrelease | .wait1 needrelease | .after1 needrelease => !isMaster && needrelease
  | .resetting => isMaster
  | _ => false

/-- The dumps and files of the current round. -/
structure Content (disk : Disk) (P : Procs g) : Prop where
  dump : ∀ p c stage, (P.part p).pc = .dump c stage → StageContent P p stage
  held : ∀ p, (P.part p).pc.holds (p = 0) = true → FileOf disk P p (P.part p).round
  freed : ∀ p, p ≠ 0 → P.lock (g.node p) = false → (∀ q, (P.part q).round + 1 = P.cnt (g.node p)) →
    ∀ c, c + 1 = P.cnt (g.node p) → FileOf disk P p c

/-- A thread moves outside `DoCheckPoint`, or begins it. -/
theorem Content.move (h : Content disk P) (hdsm : P'.dsm = P.dsm) (hprocess : P'.process = P.process)
    (hpart : P'.part = Function.update P.part p pt)
    (hdump : ∀ c stage, pt.pc = .dump c stage → stage = .opening)
    (hheld : pt.pc.holds (p = 0) = true → FileOf disk P p pt.round)
    (hfreed : ∀ q, q ≠ 0 → P'.lock (g.node q) = false →
      (∀ r, (Function.update P.part p pt r).round + 1 = P'.cnt (g.node q)) →
      ∀ c, c + 1 = P'.cnt (g.node q) → FileOf disk P q c) : Content disk P' := by
  constructor
  · intro q c stage hq
    rw [hpart] at hq
    by_cases hqp : q = p
    · subst hqp
      rw [Function.update_self] at hq
      rw [hdump c stage hq]
      trivial
    · rw [Function.update_of_ne hqp] at hq
      exact (h.dump q c stage hq).frame hdsm hprocess
  · intro q hq
    rw [hpart] at hq ⊢
    by_cases hqp : q = p
    · subst hqp
      rw [Function.update_self] at hq ⊢
      exact (hheld hq).frame hdsm hprocess rfl
    · rw [Function.update_of_ne hqp] at hq ⊢
      exact (h.held q hq).frame hdsm hprocess rfl
  · intro q hq hlock hrounds c hc
    rw [hpart] at hrounds
    exact (hfreed q hq hlock hrounds c hc).frame hdsm hprocess rfl

theorem update_round (hround : pt.round = (P.part p).round) (q : Fin (g.slaves + 1)) :
    (Function.update P.part p pt q).round = (P.part q).round := by
  by_cases hqp : q = p
  · subst hqp
    rw [Function.update_self, hround]
  · rw [Function.update_of_ne hqp]

/-- A thread moves in its round, and no lock is let go. -/
theorem Content.moveIn (h : Content disk P) (hdsm : P'.dsm = P.dsm) (hprocess : P'.process = P.process)
    (hcnt : P'.cnt = P.cnt) (hlock : ∀ q, q ≠ 0 → P'.lock (g.node q) = false → P.lock (g.node q) = false)
    (hpart : P'.part = Function.update P.part p pt) (hround : pt.round = (P.part p).round)
    (hdump : ∀ c stage, pt.pc = .dump c stage → stage = .opening)
    (hheld : pt.pc.holds (p = 0) = true → (P.part p).pc.holds (p = 0) = true) : Content disk P' := by
  apply h.move hdsm hprocess hpart hdump
  · intro hpt
    rw [hround]
    exact h.held p (hheld hpt)
  · intro q hq hfree hrounds c hc
    rw [hcnt] at hrounds hc
    apply h.freed q hq (hlock q hq hfree) _ c hc
    intro r
    rw [← update_round hround r]
    exact hrounds r

/-- While a thread dumps, the lock of its node is held by it. -/
theorem Procs.Inv.locked (h : P.Inv) {c : Nat} {stage : Stage} (hpc : (P.part p).pc = .dump c stage) :
    P.lock (g.node p) = true ∧ ∀ q, g.node q = g.node p → q ≠ p → (P.part q).pc.holds (q = 0) = false := by
  by_cases hp : p = 0
  · subst hp
    have hm := h.master
    rw [MasterNode, hpc] at hm
    rw [g.node_zero]
    exact ⟨hm.1, fun q hq hq0 => absurd ((g.node_eq_zero q).mp hq) hq0⟩
  · have hslave := h.slave _ (g.node_ne hp)
    generalize P.lock (g.node p) = locked at hslave
    cases hslave with
    | free _ hr =>
        have hrest := hr p rfl
        rw [Rested, hpc] at hrest
        exact hrest.elim
    | held r hr hholder hbeside =>
        have hpr : p = r := by
          by_contra hne
          have hb := hbeside p rfl hne
          rw [Beside, hpc] at hb
          exact hb
        subst hpr
        refine ⟨rfl, fun q hq hqp => ?_⟩
        have hb := hbeside q hq hqp
        rw [Beside] at hb
        cases hqpc : (P.part q).pc <;> simp only [hqpc] at hb <;> simp [Pc.holds, hb]

/-- A thread takes a step of `DoCheckPoint`. -/
theorem Content.dumpMove (h : Content disk P) (hinv : P.Inv) {c : Nat} {stage : Stage}
    (hpc : (P.part p).pc = .dump c stage) (hdsm : P'.dsm = P.dsm) (hprocess : P'.process = P.process)
    (hlock : P'.lock = P.lock) (hcnt : ∀ i, i ≠ g.node p → P'.cnt i = P.cnt i)
    (hpart : P'.part = Function.update P.part p pt) (hround : pt.round = (P.part p).round)
    (hfile : ∀ i, i ≠ g.node p → disk'.file i = disk.file i)
    (hdump : ∀ c stage, pt.pc = .dump c stage → StageContent P p stage)
    (hheld : pt.pc.holds (p = 0) = true → FileOf disk' P p pt.round) : Content disk' P' := by
  obtain ⟨hlocked, halone⟩ := hinv.locked hpc
  constructor
  · intro q c' stage' hq
    rw [hpart] at hq
    by_cases hqp : q = p
    · subst hqp
      rw [Function.update_self] at hq
      exact (hdump c' stage' hq).frame hdsm hprocess
    · rw [Function.update_of_ne hqp] at hq
      exact (h.dump q c' stage' hq).frame hdsm hprocess
  · intro q hq
    rw [hpart] at hq ⊢
    by_cases hqp : q = p
    · subst hqp
      rw [Function.update_self] at hq ⊢
      exact (hheld hq).frame hdsm hprocess rfl
    · rw [Function.update_of_ne hqp] at hq ⊢
      apply (h.held q hq).frame hdsm hprocess (hfile _ _)
      intro hnode
      rw [halone q hnode hqp] at hq
      cases hq
  · intro q hq hfree hrounds c' hc'
    rw [hlock] at hfree
    have hnode : g.node q ≠ g.node p := by
      intro heq
      rw [heq, hlocked] at hfree
      cases hfree
    rw [hcnt _ hnode] at hrounds hc'
    have hrounds' : ∀ r, (P.part r).round + 1 = P.cnt (g.node q) := by
      intro r
      rw [← update_round hround r, ← hpart]
      exact hrounds r
    exact (h.freed q hq hfree hrounds' c' hc').frame hdsm hprocess (hfile _ hnode)

/-- The steps of `DoCheckPoint`. -/
theorem Content.dumpStep (h : Content disk P) (hinv : P.Inv) {c : Nat} {stage : Stage}
    (hpc : (P.part p).pc = .dump c stage) :
    Content (dumpStep disk P p c stage).1 (dumpStep disk P p c stage).2 := by
  have hcontent := h.dump p c stage hpc
  obtain ⟨⟨hnumber, -⟩, -⟩ := hinv.number hpc
  -- the new stage is the next one, with the content that the old one promised
  have hnext : ∀ {stage' : Stage}, StageContent P p stage' →
      ∀ c' stage'', Pc.dump c stage' = .dump c' stage'' → StageContent P p stage'' := by
    intro stage' hstage c' stage'' heq
    obtain ⟨-, rfl⟩ := Pc.dump.inj heq
    exact hstage
  have hnot : ∀ {stage' : Stage}, (Pc.dump c stage').holds (p = 0) = true → ∀ {Q : Prop}, Q := by
    intro stage' hholds
    cases hholds
  cases stage with
  | opening =>
      refine h.dumpMove hinv hpc rfl rfl rfl (fun _ _ => rfl) rfl rfl
        (fun i hi => disk.setFile_other hi _ _) (hnext ⟨?_, ?_⟩) fun hh => hnot hh
      · intro n rest hrest
        exact ⟨n, hrest⟩
      · intro hp
        rw [decide_eq_false hp]
        exact tasks_within _ _
  | writing out todo =>
      cases todo with
      | nil =>
          have hwritten : Written P p out := by
            have hout := hcontent.1 0 [] rfl
            rw [List.append_nil] at hout
            exact hout
          rw [Checkpoint.dumpStep]
          split
          · exact h.dumpMove hinv hpc rfl rfl rfl (fun _ _ => rfl) rfl rfl (fun _ _ => rfl)
              (hnext hwritten) fun hh => hnot hh
          · exact h.dumpMove hinv hpc rfl rfl rfl (fun _ _ => rfl) rfl rfl (fun _ _ => rfl)
              (hnext hwritten) fun hh => hnot hh
      | cons t todo =>
          refine h.dumpMove hinv hpc rfl rfl rfl (fun _ _ => rfl) rfl rfl (fun _ _ => rfl)
            (hnext ⟨?_, ?_⟩) fun hh => hnot hh
          · intro n rest hrest
            rw [List.append_assoc]
            apply hcontent.1 (n + 1)
            rw [emit, hrest]
            rfl
          · intro hp t' ht'
            have hwithin := hcontent.2 hp
            rcases List.mem_append.mp ht' with ht' | ht'
            · exact Task.within_step (hwithin t List.mem_cons_self) t' ht'
            · exact hwithin t' (List.mem_cons_of_mem _ ht')
  | masterOpened out =>
      exact h.dumpMove hinv hpc rfl rfl rfl (fun _ _ => rfl) rfl rfl (fun _ _ => rfl) (hnext hcontent)
        fun hh => hnot hh
  | removing out =>
      refine h.dumpMove hinv hpc rfl rfl rfl (fun _ _ => rfl) rfl rfl (fun i hi => ?_) (hnext hcontent)
        fun hh => hnot hh
      show (if _ then _ else _ : Disk).file i = _
      split
      · exact disk.setFile_other hi _ _
      · rfl
  | counting out =>
      exact h.dumpMove hinv hpc rfl rfl rfl (fun i hi => Function.update_of_ne hi ..) rfl rfl (fun _ _ => rfl)
        (hnext hcontent) fun hh => hnot hh
  | closing out =>
      refine h.dumpMove hinv hpc rfl rfl rfl (fun _ _ => rfl) rfl rfl
        (fun i hi => disk.setFile_other hi _ _) ?_ fun _ => ⟨out, ?_, hcontent⟩
      · intro c' stage' heq
        split at heq <;> cases heq
      · rw [Checkpoint.dumpStep, Disk.setFile_self]
        show Function.update (disk.file (g.node p)) c _ (P.part p).round = _
        rw [hnumber, Function.update_self]

theorem FileOf.sameNode {q : Fin (g.slaves + 1)} {c : Nat} (h : FileOf disk P p c) (hp : p ≠ 0) (hq : q ≠ 0)
    (hnode : g.node q = g.node p) : FileOf disk P q c := by
  simp only [FileOf, Written, hnode, decide_eq_false hp, decide_eq_false hq] at h ⊢
  exact h

/-- The start of `DoCheckPoint`. -/
theorem Content.beginDump (h : Content disk P) {busy : Pc} (hbusy : ∀ c stage, busy ≠ .dump c stage)
    (hholds : busy.holds (p = 0) = false) : Content disk (P.beginDump p busy) := by
  rw [Procs.beginDump]
  split
  · refine h.moveIn rfl rfl rfl (fun _ _ hl => hl) rfl rfl (fun c stage heq => absurd heq (hbusy c stage)) ?_
    exact fun hh => absurd (hholds.symm.trans hh) Bool.false_ne_true
  · refine h.moveIn rfl rfl rfl (fun q _ hl => ?_) rfl rfl (fun c stage heq => ?_) fun hh => by cases hh
    · change Function.update P.lock (g.node p) true (g.node q) = false at hl
      by_cases hq : g.node q = g.node p
      · rw [hq, Function.update_self] at hl
        cases hl
      · rw [Function.update_of_ne hq] at hl
        exact hl
    · exact (Pc.dump.inj heq).2.symm

/-- A slave lets go of its lock: its file is that of the round. -/
theorem Content.release (h : Content disk P) (hp : p ≠ 0) (hpc : (P.part p).pc = .after1 true) :
    Content disk ((P.setLock (g.node p) false).setPc p .arrive2) := by
  refine h.move rfl rfl rfl (fun _ _ heq => by cases heq) (fun hh => by cases hh) ?_
  intro q hq hfree hrounds c hc
  change ∀ r, _ = P.cnt (g.node q) at hrounds
  change c + 1 = P.cnt (g.node q) at hc
  by_cases hnode : g.node q = g.node p
  · have hheld := h.held p (by rw [hpc, decide_eq_false hp]; rfl)
    have hround : (P.part p).round + 1 = P.cnt (g.node q) := by
      have := hrounds p
      rw [Function.update_self] at this
      exact this
    obtain rfl : c = (P.part p).round := Nat.succ.inj (hc.trans hround.symm)
    exact hheld.sameNode hp hq hnode
  · apply h.freed q hq _ _ c hc
    · change Function.update P.lock (g.node p) false (g.node q) = false at hfree
      rw [Function.update_of_ne hnode] at hfree
      exact hfree
    · intro r
      have hround : (Function.update P.part p ⟨.arrive2, (P.part p).round⟩ r).round = (P.part r).round := by
        apply update_round
        rfl
      rw [← hrounds r]
      exact congrArg (· + 1) hround.symm

/-- A thread leaves the second barrier: no slave has dumped for the next round and let go. -/
theorem Content.leave (h : Content disk P) (hinv : P.Inv) (hpc : (P.part p).pc = .wait2) :
    Content disk (P.setPart p ⟨.outside, (P.part p).round + 1⟩) := by
  refine h.move rfl rfl rfl (fun _ _ heq => by cases heq) (fun hh => by cases hh) ?_
  intro q hq hfree hrounds c hc
  have hround : (P.part p).round + 1 + 1 = P.cnt (g.node q) := by
    have := hrounds p
    rw [Function.update_self] at this
    exact this
  have hslave := hinv.slave _ (g.node_ne hq)
  change P.lock (g.node q) = false at hfree
  rw [hfree] at hslave
  cases hslave with
  | free hall _ =>
      have hle := hall p
      rw [Part.entries, hpc] at hle
      simp only at hle
      omega

/-- The steps of `Enter`. -/
theorem Content.enterStep (h : Content disk P) (hinv : P.Inv)
    (hstep : enterStep disk P p = some (disk', P')) : Content disk' P' := by
  rw [Checkpoint.enterStep] at hstep
  cases hpc : (P.part p).pc with
  | dump c stage =>
      simp only [hpc] at hstep
      have hcontent := h.dumpStep hinv hpc
      rw [Option.some.inj hstep] at hcontent
      exact hcontent
  | outside =>
      simp only [hpc] at hstep
      obtain ⟨rfl, rfl⟩ := Prod.mk.inj (Option.some.inj hstep)
      split
      · exact h.moveIn rfl rfl rfl (fun _ _ hl => hl) rfl rfl (fun _ _ heq => by cases heq)
          fun hh => absurd hh (by simp [Pc.holds])
      · exact h.beginDump (fun _ _ heq => by cases heq) (Bool.and_false _)
  | after1 needrelease =>
      simp only [hpc] at hstep
      obtain ⟨rfl, rfl⟩ := Prod.mk.inj (Option.some.inj hstep)
      split
      · exact h.beginDump (fun _ _ heq => by cases heq) rfl
      · rename_i hp
        cases needrelease with
        | true => exact h.release hp hpc
        | false =>
            exact h.moveIn rfl rfl rfl (fun _ _ hl => hl) rfl rfl (fun _ _ heq => by cases heq)
              fun hh => by cases hh
  | wait1 needrelease =>
      simp only [hpc] at hstep
      split at hstep
      · obtain ⟨rfl, rfl⟩ := Prod.mk.inj (Option.some.inj hstep)
        refine h.moveIn rfl rfl rfl (fun _ _ hl => hl) rfl rfl (fun _ _ heq => by cases heq) fun hh => ?_
        rw [hpc]
        exact hh
      · cases hstep
  | wait2 =>
      simp only [hpc] at hstep
      split at hstep
      · obtain ⟨rfl, rfl⟩ := Prod.mk.inj (Option.some.inj hstep)
        exact h.leave hinv hpc
      · cases hstep
  | arrive1 needrelease =>
      simp only [hpc] at hstep
      obtain ⟨rfl, rfl⟩ := Prod.mk.inj (Option.some.inj hstep)
      refine h.moveIn rfl rfl rfl (fun _ _ hl => hl) rfl rfl (fun _ _ heq => by cases heq) fun hh => ?_
      rw [hpc]
      exact hh
  | resetting =>
      simp only [hpc] at hstep
      obtain ⟨rfl, rfl⟩ := Prod.mk.inj (Option.some.inj hstep)
      have hp : p = 0 := by
        by_contra hp
        exact hinv.not_resetting hp hpc
      subst hp
      refine h.moveIn rfl rfl rfl (fun q hq hl => ?_) rfl rfl (fun _ _ heq => by cases heq) fun hh => by cases hh
      change Function.update P.lock (g.node 0) false (g.node q) = false at hl
      rw [g.node_zero, Function.update_of_ne (g.node_ne hq)] at hl
      exact hl
  | arrive2 =>
      simp only [hpc] at hstep
      obtain ⟨rfl, rfl⟩ := Prod.mk.inj (Option.some.inj hstep)
      exact h.moveIn rfl rfl rfl (fun _ _ hl => hl) rfl rfl (fun _ _ heq => by cases heq)
        fun hh => by cases hh

/-! ## Programs that spare what is dumped -/

/-- A call by a thread of node `i` that leaves alone the objects on the lists of nodes whose lock
is held, and these lists. -/
def Call.Spares (P : Procs g) (i : Nat) : Call → Prop
  | .put key _ _ | .newobj key _ _ | .del key =>
      ∀ q, P.lock (g.node q) = true → ∀ k ∈ (P.process (g.node q)).objectList, UInt32.ofNat k ≠ key
  | .pushObject _ | .deleteObject _ => P.lock i = false

/-- The program touches nothing that a node dumps in the current round. -/
def Orderly (s : State g) : Act g → Prop
  | .call p call => ∀ P ∈ s.procs, call.Spares P (g.node p)
  | _ => True

theorem key_ne {k : ObjectKey} {key : Word} (h : UInt32.ofNat k ≠ key) :
    k ≠ key.toNat ∧ (UInt32.ofNat k).toNat ≠ key.toNat := by
  constructor
  · rintro rfl
    exact h UInt32.ofNat_toNat
  · exact fun heq => h (UInt32.toNat_inj.mp heq)

theorem write_other (m : Memory) {k key : ObjectKey} (h : k ≠ key) (w : Nat) (ws : List Word) :
    m.write key w ws k = m k := by
  funext x
  exact if_neg fun hc => h hc.1

/-- What a sparing call does to a node whose lock is held. -/
theorem Call.Spares.keeps {i : Nat} {call : Call} (h : call.Spares P i) (hcall : P.call i call = some P')
    (hlock : P.lock (g.node p) = true) :
    P'.process (g.node p) = P.process (g.node p) ∧ Agree (P.process (g.node p)).objectList P.dsm P'.dsm := by
  cases call with
  | put key w v =>
      obtain rfl := Option.some.inj hcall
      refine ⟨rfl, fun k hk => ⟨rfl, ?_⟩⟩
      exact (write_other _ (key_ne (h p hlock k hk)).2 ..).symm
  | newobj key flag size =>
      obtain rfl := Option.some.inj hcall
      refine ⟨rfl, fun k hk => ?_⟩
      show P.dsm.info k = (P.dsm.newobj key.toNat flag size).info k ∧
        P.dsm.words _ = (P.dsm.newobj key.toNat flag size).words _
      rw [Dsm.newobj]
      split
      · exact ⟨rfl, rfl⟩
      · exact ⟨(Function.update_of_ne (key_ne (h p hlock k hk)).1 ..).symm, rfl⟩
  | del key =>
      obtain rfl := Option.some.inj hcall
      refine ⟨rfl, fun k hk => ?_⟩
      have hne := key_ne (h p hlock k hk)
      show P.dsm.info k = (P.dsm.del key.toNat).info k ∧ P.dsm.words _ = (P.dsm.del key.toNat).words _
      rw [Dsm.del]
      split
      · exact ⟨rfl, rfl⟩
      · exact ⟨(Function.update_of_ne hne.1 ..).symm, (write_other _ hne.2 ..).symm⟩
  | pushObject key | deleteObject key =>
      rw [Procs.call] at hcall
      split at hcall
      · cases hcall
      · obtain rfl := Option.some.inj hcall
        have hne : g.node p ≠ i := by
          rintro rfl
          exact absurd (hlock.symm.trans h) Bool.true_eq_false_eq_False
        exact ⟨Function.update_of_ne hne .., fun k _ => ⟨rfl, rfl⟩⟩

theorem Written.keeps (h : Written P p out) (hp : p ≠ 0)
    (hprocess : P'.process (g.node p) = P.process (g.node p))
    (hagree : Agree (P.process (g.node p)).objectList P.dsm P'.dsm) : Written P' p out := by
  obtain ⟨n, hn⟩ := h
  refine ⟨n, ?_⟩
  rw [decide_eq_false hp] at hn ⊢
  rw [hprocess, ← hn]
  exact (emit_congr hagree (tasks_within _ _)).symm

theorem StageContent.keeps {stage : Stage} (h : StageContent P p stage) (hp : p ≠ 0)
    (hprocess : P'.process (g.node p) = P.process (g.node p))
    (hagree : Agree (P.process (g.node p)).objectList P.dsm P'.dsm) : StageContent P' p stage := by
  cases stage with
  | opening => trivial
  | writing out todo =>
      obtain ⟨hemit, hwithin⟩ := h
      constructor
      · intro n rest hrest
        apply (hemit n rest _).keeps hp hprocess hagree
        rw [hprocess, ← emit_congr hagree (hwithin hp)] at hrest
        exact hrest
      · rw [hprocess]
        exact hwithin
  | masterOpened out | removing out | counting out | closing out => exact Written.keeps h hp hprocess hagree

/-- The master's thread is past the first barrier and before the second one. -/
def Pc.between : Pc → Bool
  | .dump _ _ | .resetting => true
  | _ => false

/-- While the master's thread is between the barriers, every thread is in the same round, past the
entry of the first barrier. -/
theorem Procs.Inv.between (h : P.Inv) (hpc : (P.part 0).pc.between = true) (q : Fin (g.slaves + 1)) :
    2 * (P.part 0).round + 1 ≤ P.entries q ∧ (P.part q).left (q = 0) ≤ 2 * (P.part 0).round + 1 := by
  have h0q := h.ordered 0 q
  have hq0 := h.ordered q 0
  rw [Part.left] at h0q
  rw [Part.entries] at hq0
  cases hpc' : (P.part 0).pc with
  | dump c stage =>
      rw [hpc'] at h0q hq0
      exact ⟨h0q, hq0⟩
  | resetting =>
      rw [hpc'] at h0q hq0
      exact ⟨h0q, hq0⟩
  | _ =>
      rw [hpc'] at hpc
      cases hpc

theorem Procs.Inv.not_outside (h : P.Inv) (hpc : (P.part 0).pc.between = true) (q : Fin (g.slaves + 1)) :
    (P.part q).pc ≠ .outside := by
  intro hout
  obtain ⟨hentries, hleft⟩ := h.between hpc q
  rw [Procs.entries, Part.entries, hout] at hentries
  rw [Part.left, hout] at hleft
  simp only at hentries hleft
  omega

/-- A thread of a slave that has dumped holds the lock. -/
theorem Procs.Inv.holds_locked (h : P.Inv) (hp : p ≠ 0) (hholds : (P.part p).pc.holds (p = 0) = true) :
    P.lock (g.node p) = true := by
  have hslave := h.slave _ (g.node_ne hp)
  generalize P.lock (g.node p) = locked at hslave ⊢
  cases hslave with
  | free _ hr =>
      have hrest := hr p rfl
      rw [Rested] at hrest
      rw [decide_eq_false hp] at hholds
      cases hpc : (P.part p).pc <;> simp [hpc, Pc.holds] at hrest hholds
      · exact absurd (hrest.1.symm.trans hholds) Bool.false_ne_true
      · exact absurd (hrest.1.symm.trans hholds) Bool.false_ne_true
  | held => rfl

/-- A thread outside `Enter` makes a call that spares the dumps. -/
theorem Content.call (h : Content disk P) (hinv : P.Inv) (hpc : (P.part p).pc = .outside) {call : Call}
    (hspares : call.Spares P (g.node p)) (hcall : P.call (g.node p) call = some P') : Content disk P' := by
  obtain ⟨hpart, hlock, hcnt⟩ := P.call_frame hcall
  constructor
  · intro q c stage hq
    rw [hpart] at hq
    by_cases hq0 : q = 0
    · subst hq0
      exact absurd hpc (hinv.not_outside (by rw [hq]; rfl) p)
    · obtain ⟨hprocess, hagree⟩ := hspares.keeps hcall (hinv.locked hq).1
      exact (h.dump q c stage hq).keeps hq0 hprocess hagree
  · intro q hq
    rw [hpart] at hq ⊢
    by_cases hq0 : q = 0
    · subst hq0
      have hbetween : (P.part 0).pc.between = true := by
        cases hpc0 : (P.part 0).pc <;> rw [hpc0] at hq <;> first | rfl | cases hq
      exact absurd hpc (hinv.not_outside hbetween p)
    · obtain ⟨hprocess, hagree⟩ := hspares.keeps hcall (hinv.holds_locked hq0 hq)
      obtain ⟨out, hfile, hwritten⟩ := h.held q hq
      exact ⟨out, hfile, hwritten.keeps hq0 hprocess hagree⟩
  · intro q hq hfree hrounds c hc
    rw [hpart] at hrounds
    rw [hlock] at hfree
    rw [hcnt] at hrounds hc
    have hslave := hinv.slave _ (g.node_ne hq)
    rw [hfree] at hslave
    cases hslave with
    | free hall _ =>
        have hle := hall p
        have hround := hrounds p
        rw [Part.entries, hpc] at hle
        simp only at hle
        omega

/-! ## The instant -/

def Pc.inside : Pc → Bool
  | .outside => false
  | _ => true

/-- Every thread is in `Enter` of round `c`. -/
def AllInside (P : Procs g) (c : Nat) : Prop := ∀ q, (P.part q).round = c ∧ (P.part q).pc.inside = true

instance (P : Procs g) (c : Nat) : Decidable (AllInside P c) :=
  inferInstanceAs (Decidable (∀ q, (P.part q).round = c ∧ (P.part q).pc.inside = true))

/-- The files of checkpoint `c` are what the nodes would write now, in one step, while all threads
are in `Enter` of the round. -/
def PictureOf (disk : Disk) (c : Nat) (P : Procs g) : Prop :=
  AllInside P c ∧ ∀ p, ∃ fuel out, disk.file (g.node p) c = .closed out ∧
    doCheckPoint fuel (p = 0) g.cluster.fid P.dsm (g.junk (g.node p)) (P.process (g.node p)) = some out

theorem Procs.Inv.allInside (h : P.Inv) (hpc : (P.part 0).pc = .resetting) :
    AllInside P (P.part 0).round := by
  intro q
  obtain ⟨hentries, hleft⟩ := h.between (by rw [hpc]; rfl) q
  rw [Procs.entries, Part.entries] at hentries
  rw [Part.left] at hleft
  cases hq : (P.part q).pc with
  | dump c stage =>
      rw [hq] at hentries hleft
      simp only at hentries hleft
      have hle : (if decide (q = 0) = true then 1 else 0) ≤ 1 := by split <;> decide
      exact ⟨by omega, rfl⟩
  | _ =>
      rw [hq] at hentries hleft
      simp only at hentries hleft
      first
        | omega
        | exact ⟨by omega, rfl⟩

/-- The file of every node when the master's dump has ended. -/
theorem Content.fileOf (h : Content disk P) (hinv : P.Inv) (hpc : (P.part 0).pc = .resetting)
    (p : Fin (g.slaves + 1)) : FileOf disk P p (P.part 0).round := by
  by_cases hp : p = 0
  · subst hp
    apply h.held 0
    rw [hpc]
    rfl
  · have hinside := hinv.allInside hpc
    have hslave := hinv.slave _ (g.node_ne hp)
    cases hlock : P.lock (g.node p) with
    | true =>
        rw [hlock] at hslave
        cases hslave with
        | held q hq hholder _ =>
            have hq0 : q ≠ 0 := by
              rintro rfl
              rw [g.node_zero] at hq
              exact g.node_ne hp hq.symm
            have hround := (hinside q).1
            obtain ⟨hentries, -⟩ := hinv.between (by rw [hpc]; rfl) q
            have hheld : FileOf disk P q (P.part q).round := by
              apply h.held q
              rw [Holder] at hholder
              rw [Procs.entries, Part.entries, decide_eq_false hq0] at hentries
              rw [decide_eq_false hq0]
              cases hqpc : (P.part q).pc <;> simp only [hqpc] at hholder hentries
              · rw [hround] at hentries
                exact absurd hentries (Nat.not_succ_le_self _)
              · omega
              · simp [Pc.holds, hholder]
              · simp [Pc.holds, hholder]
            rw [hround] at hheld
            exact hheld.sameNode hq0 hp hq.symm
    | false =>
        rw [hlock] at hslave
        cases hslave with
        | free _ hrested =>
            have hcnt : (P.part p).round + 1 = P.cnt (g.node p) := by
              have hr := hrested p rfl
              have hin := (hinside p).2
              rw [Rested] at hr
              cases hppc : (P.part p).pc <;> simp only [hppc] at hr hin <;> first
                | exact hr
                | exact hr.2
                | exact hr.elim
                | cases hin
            rw [(hinside p).1] at hcnt
            apply h.freed p hp hlock _ _ hcnt
            intro q
            rw [(hinside q).1]
            exact hcnt

/-- The invariant along runs in which the program spares what is dumped. -/
def State.Pictured (s : State g) : Prop := ∀ P ∈ s.procs, P.Inv ∧ Content s.disk P

theorem content_launched (disk : Disk) (d : Dsm) (ps : Nat → Process) (round : Nat) :
    Content disk (Procs.launched d ps round : Procs g) := by
  constructor
  · intro p c stage hpc
    cases hpc
  · intro p hholds
    cases hholds
  · intro p _ _ hrounds
    exact absurd (hrounds p) (Nat.succ_ne_self round)

theorem launch_launched {fuel : Nat} {order : List Nat} (h : launch g fuel order disk = some P) :
    ∃ d ps round, P = Procs.launched d ps round := by
  rw [launch] at h
  split at h
  · exact ⟨_, _, _, (Option.some.inj h).symm⟩
  · obtain ⟨files, -, h⟩ := Option.bind_eq_some_iff.mp h
    obtain ⟨⟨d, ps⟩, -, heq⟩ := Option.bind_eq_some_iff.mp h
    exact ⟨_, _, _, (Option.some.inj heq).symm⟩

theorem pictured_step {s t : State g} {a : Act g} (hs : s.Pictured) (hok : Orderly s a)
    (hstep : step s a = some t) : t.Pictured := by
  cases hprocs : s.procs with
  | none =>
      cases a with
      | launch fuel order =>
          simp only [step, hprocs] at hstep
          obtain ⟨P, hP, rfl⟩ := Option.map_eq_some_iff.mp hstep
          obtain ⟨d, ps, round, rfl⟩ := launch_launched hP
          rintro P' ⟨rfl⟩
          exact ⟨Procs.inv_launched .., content_launched ..⟩
      | crash | call _ _ | enter _ =>
          simp only [step, hprocs] at hstep
          cases hstep
  | some P =>
      obtain ⟨hinv, hcontent⟩ := hs P hprocs
      cases a with
      | launch fuel order =>
          simp only [step, hprocs] at hstep
          cases hstep
      | crash =>
          simp only [step, hprocs] at hstep
          obtain rfl := Option.some.inj hstep
          intro P' hP'
          cases hP'
      | call p call =>
          simp only [step, hprocs, Option.bind_some] at hstep
          split at hstep
          · rename_i hpc
            obtain ⟨P', hP', rfl⟩ := Option.map_eq_some_iff.mp hstep
            rintro P'' ⟨rfl⟩
            exact ⟨hinv.call hP', hcontent.call hinv hpc (hok P hprocs) hP'⟩
          · cases hstep
      | enter p =>
          simp only [step, hprocs, Option.bind_some] at hstep
          obtain ⟨⟨disk', P'⟩, hP', rfl⟩ := Option.map_eq_some_iff.mp hstep
          rintro P'' ⟨rfl⟩
          exact ⟨hinv.enterStep hP', hcontent.enterStep hinv hP'⟩

/-- In every run in which the program spares what is dumped: when the master's `DoCheckPoint` of
a round has returned, every thread is in `Enter` of the round, and the files of the checkpoint
are what the nodes would write at that instant. -/
theorem files_picture_one_instant (g : Group) (file : Nat → Nat → FileState) (acts : List (Act g))
    {s : State g} (hok : Along step Orderly (State.start file) acts)
    (hrun : run step (State.start file) acts = some s) {P : Procs g} (hP : s.procs = some P)
    (hpc : (P.part 0).pc = .resetting) : PictureOf s.disk (P.part 0).round P := by
  have hpictured : s.Pictured := by
    apply invariant_run (fun _ _ _ hs hok hstep => pictured_step hs hok hstep) _ hok hrun
    intro P' hP'
    cases hP'
  obtain ⟨hinv, hcontent⟩ := hpictured P hP
  refine ⟨hinv.allInside hpc, fun p => ?_⟩
  obtain ⟨out, hfile, n, hemit⟩ := hcontent.fileOf hinv hpc p
  exact ⟨enough, out, hfile, emit_tasks hemit⟩

instance (P : Procs g) (i : Nat) : ∀ call : Call, Decidable (call.Spares P i)
  | .put key _ _ | .newobj key _ _ | .del key =>
      inferInstanceAs (Decidable (∀ q, P.lock (g.node q) = true →
        ∀ k ∈ (P.process (g.node q)).objectList, UInt32.ofNat k ≠ key))
  | .pushObject _ | .deleteObject _ => inferInstanceAs (Decidable (P.lock i = false))

instance (s : State g) : ∀ a, Decidable (Orderly s a)
  | .call p call => inferInstanceAs (Decidable (∀ P ∈ s.procs, call.Spares P (g.node p)))
  | .launch _ _ | .crash | .enter _ => inferInstanceAs (Decidable True)

def Pc.isResetting : Pc → Bool
  | .resetting => true
  | _ => false

theorem Pc.eq_resetting {pc : Pc} (h : pc.isResetting = true) : pc = .resetting := by
  cases pc with
  | resetting => rfl
  | _ => cases h

/-- What was written to a file that is closed. -/
def FileState.contents : FileState → Option (List Byte)
  | .closed bytes => some bytes
  | _ => none

theorem FileState.eq_closed {f : FileState} {bytes : List Byte} (h : f.contents = some bytes) :
    f = .closed bytes := by
  cases f with
  | closed bytes' => rw [Option.some.inj h]
  | _ => cases h

/-- The slave makes object 5 with one word and dumps it, while the master's thread makes and
writes another object. -/
def sparing : List (Act twoNodes) :=
  [.launch 0 [], .call 1 (.newobj 5 0 1), .call 1 (.pushObject 5)] ++ List.replicate 9 (.enter 1) ++
    [.call 0 (.newobj 6 0 1), .call 0 (.put 6 0 7)] ++ List.replicate 7 (.enter 1) ++
    List.replicate 16 (.enter 0)

theorem files_picture_one_instant_sparing :
    ∃ s P, run step (State.start fun _ _ => .absent) sparing = some s ∧ s.procs = some P ∧
      P.dsm.words 6 0 = 7 ∧ PictureOf s.disk (P.part 0).round P := by
  have hprocs : ((run step (State.start fun _ _ => .absent) sparing).bind State.procs).map
      (fun P => ((P.part 0).pc.isResetting, P.dsm.words 6 0)) = some (true, 7) := by decide +kernel
  have hok : Along step Orderly (State.start fun _ _ => .absent) sparing := by
    apply along_of_check
    decide +kernel
  obtain ⟨P, hP, heq⟩ := Option.map_eq_some_iff.mp hprocs
  obtain ⟨s, hs, hP⟩ := Option.bind_eq_some_iff.mp hP
  obtain ⟨hreset, hword⟩ := Prod.mk.inj heq
  exact ⟨s, P, hs, hP, hword,
    files_picture_one_instant twoNodes _ sparing hok hs hP (Pc.eq_resetting hreset)⟩

/-- The master's thread writes object 5 after the slave has dumped it, and then enters. -/
def lateWrite : List (Act twoNodes) :=
  [.launch 0 [], .call 1 (.newobj 5 0 1), .call 1 (.pushObject 5)] ++ List.replicate 16 (.enter 1) ++
    [.call 0 (.put 5 0 7)] ++ List.replicate 16 (.enter 0)

/-- At every instant with all threads in `Enter` the word holds 7, and the file restores 0. -/
theorem late_write_missed :
    ∃ s P, run step (State.start fun _ _ => .absent) lateWrite = some s ∧ s.procs = some P ∧
      (P.part 0).pc = .resetting ∧
      (∃ bytes d q, s.disk.file 1 0 = .closed bytes ∧ doRestart 2 false [] Dsm.empty bytes = some (d, q) ∧
        5 ∈ q.objectList ∧ d.words 5 0 = 0) ∧
      ∀ pre post m Pm, lateWrite = pre ++ post →
        run step (State.start fun _ _ => .absent) pre = some m → m.procs = some Pm → AllInside Pm 0 →
        Pm.dsm.words 5 0 = 7 := by
  have hprocs : ((run step (State.start fun _ _ => .absent) lateWrite).bind fun s => s.procs.map fun P =>
      ((P.part 0).pc.isResetting, (s.disk.file 1 0).contents.bind fun bytes =>
        (doRestart 2 false [] Dsm.empty bytes).map fun r => (decide (5 ∈ r.2.objectList), r.1.words 5 0))) =
      some (true, some (true, 0)) := by decide +kernel
  have hinstants : ∀ n < 37, (((run step (State.start fun _ _ => .absent) (lateWrite.take n)).bind
      State.procs).all fun P => !decide (AllInside P 0) || P.dsm.words 5 0 == 7) = true := by decide +kernel
  obtain ⟨s, hs, heq⟩ := Option.bind_eq_some_iff.mp hprocs
  obtain ⟨P, hP, heq⟩ := Option.map_eq_some_iff.mp heq
  obtain ⟨hreset, hfile⟩ := Prod.mk.inj heq
  obtain ⟨bytes, hbytes, heq⟩ := Option.bind_eq_some_iff.mp hfile
  obtain ⟨⟨d, q⟩, hrestart, heq⟩ := Option.map_eq_some_iff.mp heq
  obtain ⟨hmem, hword⟩ := Prod.mk.inj heq
  refine ⟨s, P, hs, hP, Pc.eq_resetting hreset,
    ⟨bytes, d, q, FileState.eq_closed hbytes, hrestart, of_decide_eq_true hmem, hword⟩, ?_⟩
  intro pre post m Pm hpre hm hPm hinside
  have hlen : pre.length < 37 := by
    have := congrArg List.length hpre
    rw [List.length_append] at this
    have hlength : lateWrite.length = 36 := rfl
    omega
  have htake : lateWrite.take pre.length = pre := by
    rw [hpre, List.take_left]
  have hall := hinstants _ hlen
  rw [htake, hm] at hall
  simp only [Option.bind_some, hPm, Option.all_some, decide_eq_true hinside, Bool.not_true,
    Bool.false_or] at hall
  exact eq_of_beq hall

end Content

end Dogee.Checkpoint
