import Dogee.Text
import Dogee.Address
import Mathlib.Data.Finset.Basic
import Mathlib.Data.Set.Image
import Mathlib.Logic.Function.Basic
import Mathlib.Order.CompletePartialOrder

/-!
# The start of a cluster

The master reads pairs of arguments and its configuration, leaves out the excluded slaves, and says
hello to the others; the position of a slave in what is left is its node id. Checkpoint files are named
by that id, on the disk of the slave. A restart runs the program again, with more arguments.

Arguments, hosts and paths are texts. `none` is undefined behaviour: a part that is not there after a
split, or a number that is no `int`. The memory that the argument vector is built in is not modelled,
except for its size.
-/

namespace Dogee.ClusterStart

open Text

/-- A host and a port. -/
abbrev Endpoint := Text × Int

/-- The endpoints in `DogeeConfig.txt`. -/
structure Config where
  masterPort : Int
  slaves : List Endpoint
  memServers : List Endpoint

/-! ## The arguments -/

abbrev Params := Text → Option Text

/-- The loop over the arguments behind the name of the program: `param[argv[i]] = argv[i + 1]`. -/
def readParams (param : Params) : List Text → Params
  | key :: value :: rest => readParams (Function.update param key (some value)) rest
  | _ => param

def excludeKey : Text := "----exclude".toList

def restartKey : Text := "----restart".toList

def decodeEndpoint (str : Text) : Option Endpoint :=
  match strSplit ':' [] str with
  | ip :: port :: _ => (atoi port).map fun n => (ip, n)
  | _ => none

/-- The value of `----exclude`. -/
def decodeExcludes (value : Text) : Option (Finset Endpoint) :=
  ((strSplit ';' [] value).mapM decodeEndpoint).map List.toFinset

/-- What the arguments say: the parameters, the excluded endpoints and the process to wait for. -/
structure Arguments where
  param : Params
  excludes : Finset Endpoint
  restartPid : Option Int

def readExcludes (param : Params) : Option (Finset Endpoint) :=
  match param excludeKey with
  | some value => decodeExcludes value
  | none => some ∅

def readRestartPid (param : Params) : Option (Option Int) :=
  match param restartKey with
  | some value => (atoi value).map some
  | none => some none

/-- The arguments of a master. -/
def readArguments (argv : List Text) : Option Arguments := do
  let param := readParams (fun _ => none) argv.tail
  let excludes ← readExcludes param
  let restartPid ← readRestartPid param
  return ⟨param, excludes, restartPid⟩

/-! ## The nodes -/

/-- The loop over the slaves or over the memory servers of the configuration. An endpoint is kept with
its index in the configuration. -/
def readEndpoints (excludes : Finset Endpoint) : Nat → List Endpoint → List (Nat × Endpoint)
  | _, [] => []
  | i, e :: rest =>
      if e ∈ excludes then readEndpoints excludes (i + 1) rest
      else (i, e) :: readEndpoints excludes (i + 1) rest

/-- The loop of `RcMaster`: the node ids that `RcMasterHello` sends. -/
def hellos : Nat → List (Nat × Endpoint) → List (Nat × (Nat × Endpoint))
  | _, [] => []
  | i, host :: rest => (i, host) :: hellos (i + 1) rest

/-- A process that starts: a slave that listens, or a master with its arguments, the ids of the slaves
and the memory servers. -/
inductive Start
  | slave (port : Int)
  | master (args : Arguments) (nodes : List (Nat × (Nat × Endpoint))) (mem : List (Nat × Endpoint))

def helperInitCluster (config : Config) (argv : List Text) : Option Start :=
  if 3 ≤ argv.length ∧ argv[1]? = some "-s".toList then (atoi (argv.getD 2 [])).map Start.slave
  else do
    let args ← readArguments argv
    return .master args (hellos 1 (readEndpoints args.excludes 0 config.slaves))
      (readEndpoints args.excludes 0 config.memServers)

/-- The id of the slave with the index `p` in the configuration. -/
def nodeId (excludes : Finset Endpoint) (slaves : List Endpoint) (p : Nat) : Option Nat :=
  ((hellos 1 (readEndpoints excludes 0 slaves)).find? fun hello => hello.2.1 = p).map Prod.fst

/-- The name of the file that `DoCheckPoint` writes and `DoRestart` opens. -/
def checkpointPath (applicationName : Text) (selfNodeId : Nat) (checkpointCnt : Int) : Text :=
  applicationName ++ '.' :: (decimal selfNodeId ++ '.' :: (decimal checkpointCnt ++ ".checkpoint".toList))

/-! ## The restart -/

/-- The loop of `RestartCurrentProcess` over the excluded endpoints. -/
def excludesText : List Endpoint → Text
  | [] => []
  | [e] => e.1 ++ ':' :: decimal e.2
  | e :: rest => e.1 ++ ':' :: (decimal e.2 ++ ';' :: excludesText rest)

/-- The arguments that `RestartCurrentProcess` runs the program with. -/
def restartCurrentProcess (argv : List Text) (pid : Int) (excludes : List Endpoint) : List Text :=
  let text := "----exclude ".toList ++ excludesText excludes
  argv ++ [restartKey, decimal pid] ++ if 0 < excludes.length then [text] else []

/-- `new char*[myargc+ excludes_ip.size()>0 ? 4:3]`, where `+` and `>` come before `?`. -/
def newargvSize (myargc : Nat) (excludes : List Endpoint) : Nat :=
  if myargc + excludes.length > 0 then 4 else 3

/-- `RestartCluster`: the nodes that the command cannot be sent to are excluded too. -/
def restartCluster (argv : List Text) (pid : Int) (nodes : List (Nat × (Nat × Endpoint)))
    (sendFails : Nat → Bool) (excludes : List Endpoint) : List Text :=
  restartCurrentProcess argv pid (excludes ++ (nodes.filter fun node => sendFails node.1).map (·.2.2))

/-! ## Node ids -/

/-- How many slaves before `p` in the configuration are excluded. -/
def excludedBefore (excludes : Finset Endpoint) (slaves : List Endpoint) (p : Nat) : Nat :=
  (slaves.take p).countP (· ∈ excludes)

/-- The slave `p` is in the cluster. -/
def Included (excludes : Finset Endpoint) (slaves : List Endpoint) (p : Nat) : Prop :=
  ∃ e, slaves[p]? = some e ∧ e ∉ excludes

section NodeIds

variable {excludes before after : Finset Endpoint} {slaves : List Endpoint} {p : Nat}

theorem le_of_mem_readEndpoints {i : Nat} {node : Nat × Endpoint}
    (hmem : node ∈ readEndpoints excludes i slaves) : i ≤ node.1 := by
  induction slaves generalizing i with
  | nil => cases hmem
  | cons e rest ih =>
      rw [readEndpoints] at hmem
      split at hmem
      · exact Nat.le_of_succ_le (ih hmem)
      · rcases List.mem_cons.mp hmem with rfl | hrest
        · exact Nat.le_refl i
        · exact Nat.le_of_succ_le (ih hrest)

theorem mem_of_mem_hellos {i : Nat} {nodes : List (Nat × Endpoint)} {hello : Nat × (Nat × Endpoint)}
    (hmem : hello ∈ hellos i nodes) : hello.2 ∈ nodes := by
  induction nodes generalizing i with
  | nil => cases hmem
  | cons node rest ih =>
      rcases List.mem_cons.mp hmem with rfl | hrest
      · exact List.mem_cons_self
      · exact List.mem_cons_of_mem _ (ih hrest)

/-- The hello to the slave `p`, of those in a part of the configuration that starts at `k`. -/
theorem find_hellos (excludes : Finset Endpoint) (slaves : List Endpoint) (i k p : Nat) :
    ((hellos i (readEndpoints excludes k slaves)).find? fun hello => hello.2.1 = k + p).map Prod.fst =
      (slaves[p]?).bind fun e =>
        if e ∈ excludes then none else some (i + (slaves.take p).countP (· ∉ excludes)) := by
  induction slaves generalizing i k p with
  | nil => rfl
  | cons e rest ih =>
      cases p with
      | zero =>
          by_cases he : e ∈ excludes
          · have hnone : (hellos i (readEndpoints excludes (k + 1) rest)).find?
                (fun hello => hello.2.1 = k + 0) = none := by
              apply List.find?_eq_none.mpr
              intro hello hmem
              have hle := le_of_mem_readEndpoints (mem_of_mem_hellos hmem)
              rw [decide_eq_true_iff]
              omega
            rw [readEndpoints, if_pos he, hnone]
            simp [he]
          · simp [readEndpoints, he, hellos]
      | succ p =>
          have hindex : k + (p + 1) = k + 1 + p := by omega
          rw [hindex]
          by_cases he : e ∈ excludes
          · have hfind := ih i (k + 1) p
            simpa [readEndpoints, he] using hfind
          · have hfind := ih (i + 1) (k + 1) p
            have hne : ¬k = k + 1 + p := by omega
            simpa [readEndpoints, he, hellos, hne, Nat.add_comm, Nat.add_left_comm, Nat.add_assoc] using hfind

/-- The id of a slave in the cluster counts the slaves before it that are not excluded. -/
theorem nodeId_eq (excludes : Finset Endpoint) (slaves : List Endpoint) (p : Nat) :
    nodeId excludes slaves p = (slaves[p]?).bind fun e =>
      if e ∈ excludes then none else some (1 + (slaves.take p).countP (· ∉ excludes)) := by
  have hfind := find_hellos excludes slaves 1 0 p
  rw [Nat.zero_add] at hfind
  exact hfind

theorem nodeId_eq_some_iff {id : Nat} :
    nodeId excludes slaves p = some id ↔
      Included excludes slaves p ∧ id + excludedBefore excludes slaves p = p + 1 := by
  rw [nodeId_eq]
  cases he : slaves[p]? with
  | none =>
      constructor
      · intro h
        cases h
      · rintro ⟨⟨e, hget, -⟩, -⟩
        rw [he] at hget
        cases hget
  | some e =>
      have hlength : (slaves.take p).length = p := by
        obtain ⟨hlt, -⟩ := List.getElem?_eq_some_iff.mp he
        exact List.length_take_of_le (Nat.le_of_lt hlt)
      have hcount : excludedBefore excludes slaves p + (slaves.take p).countP (· ∉ excludes) = p := by
        have hsplit := List.length_eq_countP_add_countP (fun e => decide (e ∈ excludes)) (l := slaves.take p)
        rw [hlength] at hsplit
        simpa [excludedBefore] using hsplit.symm
      rw [Option.bind_some]
      constructor
      · intro h
        split at h
        · cases h
        · rename_i hnot
          obtain rfl := Option.some.inj h
          refine ⟨⟨e, he, hnot⟩, ?_⟩
          omega
      · rintro ⟨⟨e', hget, hnot⟩, hid⟩
        obtain rfl := Option.some.inj (he.symm.trans hget)
        rw [if_neg hnot]
        apply congrArg some
        omega

theorem checkpointPath_inj {applicationName : Text} {id id' : Nat} {cnt cnt' : Int}
    (h : checkpointPath applicationName id cnt = checkpointPath applicationName id' cnt') : id = id' := by
  have htail := (List.cons.inj (List.append_cancel_left h)).2
  have hid := append_delim_inj (notMem_decimal (by decide) (by decide) _)
    (notMem_decimal (by decide) (by decide) _) htail
  rw [decimal_natCast, decimal_natCast] at hid
  exact toDigits_inj hid

/-- A slave that is in the cluster before a restart and after it keeps its id, and opens the file of a
checkpoint under the name that it wrote it to. -/
def IdentityKept (applicationName : Text) (slaves : List Endpoint) (before after : Finset Endpoint) : Prop :=
  ∀ p id id', nodeId before slaves p = some id → nodeId after slaves p = some id' →
    id' = id ∧ ∀ cnt, checkpointPath applicationName id' cnt = checkpointPath applicationName id cnt

/-- As many slaves as before are excluded in front of each slave that stays. -/
def SameExcluded (slaves : List Endpoint) (before after : Finset Endpoint) : Prop :=
  ∀ p, Included before slaves p → Included after slaves p →
    excludedBefore before slaves p = excludedBefore after slaves p

theorem included_iff_exists : Included excludes slaves p ↔ ∃ id, nodeId excludes slaves p = some id := by
  constructor
  · intro hincluded
    refine ⟨p + 1 - excludedBefore excludes slaves p, nodeId_eq_some_iff.mpr ⟨hincluded, ?_⟩⟩
    have hle : excludedBefore excludes slaves p ≤ p :=
      calc excludedBefore excludes slaves p ≤ (slaves.take p).length := List.countP_le_length
        _ ≤ p := List.length_take_le p slaves
    omega
  · rintro ⟨id, hid⟩
    exact (nodeId_eq_some_iff.mp hid).1

theorem identityKept_iff (applicationName : Text) :
    IdentityKept applicationName slaves before after ↔ SameExcluded slaves before after := by
  constructor
  · intro hkept p hbefore hafter
    obtain ⟨id, hid⟩ := included_iff_exists.mp hbefore
    obtain ⟨id', hid'⟩ := included_iff_exists.mp hafter
    obtain ⟨rfl, -⟩ := hkept p id id' hid hid'
    have hsum := (nodeId_eq_some_iff.mp hid).2
    have hsum' := (nodeId_eq_some_iff.mp hid').2
    omega
  · intro hsame p id id' hid hid'
    obtain ⟨hbefore, hsum⟩ := nodeId_eq_some_iff.mp hid
    obtain ⟨hafter, hsum'⟩ := nodeId_eq_some_iff.mp hid'
    have hcount := hsame p hbefore hafter
    obtain rfl : id' = id := by omega
    exact ⟨rfl, fun _ => rfl⟩

/-- Over a start and any number of restarts, each with its excluded endpoints, the slaves keep their
identity exactly when no restart changes how many are excluded before a slave that stays. -/
theorem identity_kept_iff (applicationName : Text) (slaves : List Endpoint)
    (starts : List (Finset Endpoint)) :
    starts.IsChain (IdentityKept applicationName slaves) ↔ starts.IsChain (SameExcluded slaves) := by
  have hsame : IdentityKept applicationName slaves = SameExcluded slaves := by
    funext before after
    exact propext (identityKept_iff applicationName)
  rw [hsame]

/-- A slave that is never excluded then has one id in the whole run. -/
theorem nodeId_constant {first : Finset Endpoint} {starts : List (Finset Endpoint)}
    (hchain : (first :: starts).IsChain (SameExcluded slaves))
    (hincluded : ∀ excludes ∈ first :: starts, Included excludes slaves p) :
    ∀ excludes ∈ starts, nodeId excludes slaves p = nodeId first slaves p := by
  induction starts generalizing first with
  | nil => exact fun _ hmem => absurd hmem List.not_mem_nil
  | cons second rest ih =>
      obtain ⟨hsame, hrest⟩ := List.isChain_cons_cons.mp hchain
      obtain ⟨id, hid⟩ := included_iff_exists.mp (hincluded first List.mem_cons_self)
      have hsecond : nodeId second slaves p = nodeId first slaves p := by
        obtain ⟨hfirst, hsum⟩ := nodeId_eq_some_iff.mp hid
        have hin := hincluded second (List.mem_cons_of_mem _ List.mem_cons_self)
        rw [hid]
        apply nodeId_eq_some_iff.mpr
        refine ⟨hin, ?_⟩
        rw [← hsame p hfirst hin]
        exact hsum
      intro excludes hmem
      rcases List.mem_cons.mp hmem with rfl | hmem
      · exact hsecond
      · have hlater := ih hrest (fun e he => hincluded e (List.mem_cons_of_mem _ he)) excludes hmem
        exact hlater.trans hsecond

end NodeIds

def twoSlaves : List Endpoint := [("a".toList, 1), ("b".toList, 1)]

/-- When the first of two slaves is excluded the second gets another id, and none of the names that it
opens is one that it wrote. -/
theorem second_slave_renamed :
    ¬IdentityKept "app".toList twoSlaves ∅ {("a".toList, 1)} ∧
      nodeId ∅ twoSlaves 1 = some 2 ∧ nodeId {("a".toList, 1)} twoSlaves 1 = some 1 ∧
      ∀ cnt cnt', checkpointPath "app".toList 1 cnt ≠ checkpointPath "app".toList 2 cnt' := by
  have hbefore : nodeId ∅ twoSlaves 1 = some 2 := by decide
  have hafter : nodeId {("a".toList, 1)} twoSlaves 1 = some 1 := by decide
  refine ⟨?_, hbefore, hafter, ?_⟩
  · intro hkept
    exact absurd (hkept 1 2 1 hbefore hafter).1 (by decide)
  · intro cnt cnt' heq
    exact absurd (checkpointPath_inj heq) (by decide)

/-! ## The arguments of a restart -/

/-- Arguments that are pairs of a key and a value. -/
def pairArguments (pairs : List (Text × Text)) : List Text := pairs.flatMap fun kv => [kv.1, kv.2]

section Arguments

variable {excludes : List Endpoint} {pid : Int}

theorem readParams_pairs (pairs : List (Text × Text)) (param : Params) (rest : List Text) :
    readParams param (pairArguments pairs ++ rest) = readParams (readParams param (pairArguments pairs)) rest := by
  induction pairs generalizing param with
  | nil => rfl
  | cons kv pairs ih => exact ih _

/-- An endpoint that `----exclude` can hold. -/
def Plain (e : Endpoint) : Prop := ':' ∉ e.1 ∧ ';' ∉ e.1 ∧ -2 ^ 31 ≤ e.2 ∧ e.2 < 2 ^ 31

theorem decodeEndpoint_text {e : Endpoint} (he : Plain e) :
    decodeEndpoint (e.1 ++ ':' :: decimal e.2) = some e := by
  obtain ⟨hcolon, -, hlow, hhigh⟩ := he
  have hport : strSplit ':' [] (decimal e.2) = [decimal e.2] := by
    rw [strSplit_notMem (notMem_decimal (by decide) (by decide) _), List.nil_append]
    exact if_neg (decimal_ne_nil _)
  rw [decodeEndpoint, strSplit_append hcolon, hport]
  simp only [List.nil_append, atoi_decimal hlow hhigh, Option.map_some]

theorem strSplit_excludesText (hplain : ∀ e ∈ excludes, Plain e) :
    strSplit ';' [] (excludesText excludes) = excludes.map fun e => e.1 ++ ':' :: decimal e.2 := by
  have hitem : ∀ e ∈ excludes, ';' ∉ e.1 ++ ':' :: decimal e.2 := by
    intro e he
    rw [List.mem_append, List.mem_cons]
    rintro (hip | heq | hport)
    · exact (hplain e he).2.1 hip
    · exact absurd heq (by decide)
    · exact notMem_decimal (by decide) (by decide) _ hport
  clear hplain
  induction excludes with
  | nil => rfl
  | cons e rest ih =>
      have hhead := hitem e List.mem_cons_self
      cases rest with
      | nil =>
          rw [excludesText, strSplit_notMem hhead, List.nil_append, if_neg (by simp)]
          rfl
      | cons e' rest =>
          have hrest := ih fun e'' he => hitem e'' (List.mem_cons_of_mem _ he)
          have hsplit := strSplit_append hhead [] (excludesText (e' :: rest))
          rw [List.append_assoc, List.cons_append, hrest] at hsplit
          exact hsplit

/-- The text itself can be decoded; it would have to be the value of a pair. -/
theorem decodeExcludes_excludesText (hplain : ∀ e ∈ excludes, Plain e) :
    decodeExcludes (excludesText excludes) = some excludes.toFinset := by
  rw [decodeExcludes, strSplit_excludesText hplain]
  have hall : (excludes.map fun e => e.1 ++ ':' :: decimal e.2).mapM decodeEndpoint = some excludes := by
    induction excludes with
    | nil => rfl
    | cons e rest ih =>
        have hrest := ih fun e' he => hplain e' (List.mem_cons_of_mem _ he)
        rw [List.map_cons, List.mapM_cons, decodeEndpoint_text (hplain e List.mem_cons_self), hrest]
        rfl
  rw [hall]
  rfl

/-- Besides, the vector with its null pointer is longer than what has been allocated for it. -/
theorem newargvSize_lt {argv : List Text} (hargv : argv ≠ []) (hne : excludes ≠ []) :
    newargvSize argv.length excludes < (restartCurrentProcess argv pid excludes).length + 1 := by
  have hargc := List.length_pos_iff.mpr hargv
  have hpos := List.length_pos_iff.mpr hne
  rw [newargvSize, if_pos (by omega), restartCurrentProcess, if_pos hpos]
  simp only [List.length_append, List.length_cons, List.length_nil]
  omega

/-- A text that is left over behind the pairs is not read. -/
theorem readParams_restart (program : Text) (pairs : List (Text × Text)) (param : Params) (pid : Int)
    (excludes : List Endpoint) :
    readParams param (restartCurrentProcess (program :: pairArguments pairs) pid excludes).tail =
      Function.update (readParams param (pairArguments pairs)) restartKey (some (decimal pid)) := by
  have htail : ∃ rest, (restartCurrentProcess (program :: pairArguments pairs) pid excludes).tail =
      pairArguments pairs ++ ([restartKey, decimal pid] ++ rest) ∧ rest.length ≤ 1 := by
    refine ⟨if 0 < excludes.length then ["----exclude ".toList ++ excludesText excludes] else [], ?_, ?_⟩
    · rw [restartCurrentProcess, List.append_assoc]
      rfl
    · split
      · exact Nat.le_refl 1
      · exact Nat.zero_le 1
  obtain ⟨rest, htail, hshort⟩ := htail
  rw [htail, readParams_pairs]
  cases rest with
  | nil => rfl
  | cons text rest =>
      obtain rfl := List.length_eq_zero_iff.mp (Nat.le_zero.mp (Nat.le_of_succ_le_succ hshort))
      rfl

/-- The new process reads the process to wait for, and excludes what the old one did. -/
theorem readArguments_restart (program : Text) (pairs : List (Text × Text)) (excludes : List Endpoint)
    (hlow : -2 ^ 31 ≤ pid) (hhigh : pid < 2 ^ 31) :
    readArguments (restartCurrentProcess (program :: pairArguments pairs) pid excludes) =
      (readExcludes (readParams (fun _ => none) (pairArguments pairs))).map fun decoded =>
        ⟨Function.update (readParams (fun _ => none) (pairArguments pairs)) restartKey (some (decimal pid)),
          decoded, some pid⟩ := by
  rw [readArguments, readParams_restart]
  generalize readParams (fun _ => none) (pairArguments pairs) = param
  have hexcludes : readExcludes (Function.update param restartKey (some (decimal pid))) =
      readExcludes param := by
    rw [readExcludes, readExcludes, Function.update_of_ne (by decide)]
  have hpid : readRestartPid (Function.update param restartKey (some (decimal pid))) = some (some pid) := by
    rw [readRestartPid, Function.update_self]
    exact congrArg (Option.map some) (atoi_decimal hlow hhigh)
  simp only [hexcludes, hpid, Option.bind_eq_bind, Option.bind_some]
  exact Option.map_eq_bind.symm

/-- A master that is restarted has the nodes that it had, whichever are to be excluded. -/
theorem helperInitCluster_restart (config : Config) (program : Text) (pairs : List (Text × Text))
    (hlow : -2 ^ 31 ≤ pid) (hhigh : pid < 2 ^ 31) {args : Arguments}
    {nodes : List (Nat × (Nat × Endpoint))} {mem : List (Nat × Endpoint)}
    (hstart : helperInitCluster config (program :: pairArguments pairs) = some (.master args nodes mem))
    (sendFails : Nat → Bool) (excludes : List Endpoint) :
    ∃ args', helperInitCluster config
        (restartCluster (program :: pairArguments pairs) pid nodes sendFails excludes) =
          some (.master args' nodes mem) ∧
      args'.excludes = args.excludes ∧ args'.restartPid = some pid := by
  rw [helperInitCluster] at hstart
  split at hstart
  · obtain ⟨port, -, hport⟩ := Option.map_eq_some_iff.mp hstart
    cases hport
  · rename_i hmaster
    obtain ⟨read, hread, hstart⟩ := Option.bind_eq_some_iff.mp hstart
    obtain ⟨decoded, hdecoded, hread⟩ := Option.bind_eq_some_iff.mp hread
    obtain ⟨old, -, hread⟩ := Option.bind_eq_some_iff.mp hread
    obtain rfl := Option.some.inj hread
    obtain ⟨rfl, rfl, rfl⟩ := Start.master.inj (Option.some.inj hstart)
    rw [List.tail_cons] at hdecoded
    rw [restartCluster, helperInitCluster, if_neg, readArguments_restart program pairs _ hlow hhigh, hdecoded]
    · exact ⟨_, rfl, rfl, rfl⟩
    · rintro ⟨-, hslave⟩
      apply hmaster
      -- the key that comes first is that of the restart when there are no pairs
      cases pairs with
      | nil => exact absurd (Option.some.inj hslave) (by decide)
      | cons kv pairs =>
          refine ⟨?_, hslave⟩
          simp [pairArguments]

end Arguments

end Dogee.ClusterStart
