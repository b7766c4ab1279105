import Dogee.CheckpointRoundTrip
import Dogee.SharedConst
import Dogee.SharedArray

/-!
# Shared constants after a restart

The master that finds a checkpoint restores object 0 and then runs the initialisers of the shared
constants, which load the local copies from there. Before that, `RcMaster` has constructed the
checkpoint object and deleted the list of initialisers.

A constant has four or eight bytes, as `width` says for its field; the local copies are words. The
constructor of the checkpoint object is the user's and may assign constants.
-/

namespace Dogee.RestartConst

open Checkpoint
open SharedArray (Width getValue)
open SharedConst (FieldKey registered)

/-- The local copies of the constants. -/
abbrev Copies := FieldKey → List Word

variable (width : FieldKey → Width)

/-- The copies that the constructors of the constants leave. -/
def initial : Copies := fun fk => List.replicate (width fk).dsmSizeOf 0

/-- `DSMInterface<T>::get_value(0, fk)` -/
def valueIn (m : Memory) (fk : FieldKey) : List Word := ((getValue (width fk) 0 fk).flat m).1

/-- `SharedConst::load` -/
def load (m : Memory) (val : Copies) (fk : FieldKey) : Copies :=
  Function.update val fk (valueIn width m fk)

/-- `InitSharedConst`; the list is deleted when it has run. -/
def initSharedConst (map : Option (List FieldKey)) (m : Memory) (val : Copies) : Copies :=
  match map with
  | some fks => fks.foldl (load width m) val
  | none => val

/-- `DeleteSharedConstInitializer` -/
def deleteSharedConstInitializer (_map : Option (List FieldKey)) : Option (List FieldKey) := none

/-- The master when the `DoRestart` of the checkpoint object is called. -/
structure Restarted where
  dsm : Dsm
  process : Process
  val : Copies

/-- `DoRestart` of the master, up to the call of the user's. -/
def doRestart (fuel : Nat) (sizes : List Nat) (map : Option (List FieldKey)) (val : Copies) (d : Dsm)
    (file : List Byte) : Option Restarted := do
  let st ← restoreStatics fuel true ⟨d, ∅, file⟩
  let val := initSharedConst width map st.dsm.words val
  let (numobj, bytes) ← readWord st.bytes
  let st ← restoreObjects fuel numobj.toBitVec.toInt.toNat { st with bytes := bytes }
  let members ← readMembers sizes st.bytes
  return ⟨st.dsm, ⟨st.objectList, members⟩, val⟩

/-- `RcMaster` once the slaves are connected. -/
def rcMaster (fuel : Nat) (sizes : List Nat) (consts : List FieldKey) (initCheckpoint : Copies → Copies)
    (checkpoint : Int) (d : Dsm) (file : List Byte) : Option Restarted :=
  let map := registered consts
  let val := initCheckpoint (initial width)
  let map := deleteSharedConstInitializer map
  if 0 ≤ checkpoint then doRestart width fuel sizes map val d file else none

section Restart

variable {width} {fuel fid : Nat} {sizes : List Nat} {map : Option (List FieldKey)} {val : Copies}
  {consts : List FieldKey} {src d : Dsm} {junk : ObjectKey → Word × Word} {p : Process} {file : List Byte}

/-- Apart from the copies it is the restart of a node. -/
theorem doRestart_dsm (width : FieldKey → Width) (map : Option (List FieldKey)) (val : Copies) :
    (doRestart width fuel sizes map val d file).map (fun r => (r.dsm, r.process)) =
      Checkpoint.doRestart fuel true sizes d file := by
  unfold doRestart Checkpoint.doRestart
  simp only [Option.bind_eq_bind, Option.map_bind, Function.comp_def]
  rfl

/-- The copies are what the initialisers leave. -/
theorem val_doRestart {r : Restarted} (h : doRestart width fuel sizes map val d file = some r) :
    ∃ st, restoreStatics fuel true ⟨d, ∅, file⟩ = some st ∧
      r.val = initSharedConst width map st.dsm.words val := by
  obtain ⟨st, hst, h⟩ := Option.bind_eq_some_iff.mp h
  obtain ⟨⟨numobj, bytes⟩, -, h⟩ := Option.bind_eq_some_iff.mp h
  obtain ⟨st', -, h⟩ := Option.bind_eq_some_iff.mp h
  obtain ⟨members, -, h⟩ := Option.bind_eq_some_iff.mp h
  obtain rfl := Option.some.inj h
  exact ⟨st, hst, rfl⟩

theorem foldl_load_of_mem (m : Memory) {fk : FieldKey} {fks : List FieldKey} (hmem : fk ∈ fks)
    (val : Copies) : fks.foldl (load width m) val fk = valueIn width m fk := by
  induction fks using List.reverseRecOn with
  | nil => cases hmem
  | append_singleton rest fk' ih =>
      rw [List.foldl_append, List.foldl_cons, List.foldl_nil, load]
      rcases eq_or_ne fk fk' with rfl | hne
      · exact Function.update_self ..
      · rw [Function.update_of_ne hne]
        apply ih
        simpa [hne] using hmem

/-- The words that `get_value` reads. -/
theorem valueIn_eq (width : FieldKey → Width) (m : Memory) (fk : FieldKey) :
    valueIn width m fk = m.read 0 fk (width fk).dsmSizeOf := by
  unfold valueIn
  cases width fk with
  | four => rfl
  | eight => rfl

/-- While the list is there, a restart loads every constant whose words are in the file. -/
theorem doRestart_registered (hfid : fid < two32) (hfile : doCheckPoint fuel true fid src junk p = some file)
    {r : Restarted} (h : doRestart width fuel sizes (registered consts) val d file = some r) {fk : FieldKey}
    (hmem : fk ∈ consts) (hin : fk + (width fk).dsmSizeOf ≤ fid) :
    r.val fk = valueIn width src.words fk := by
  obtain ⟨bytes, objects, hstatics, -, rfl⟩ := doCheckPoint_parts hfile
  obtain ⟨st, hst, hval⟩ := val_doRestart h
  rw [restoreStatics_dump hstatics] at hst
  obtain rfl := Option.some.inj hst
  have hmap : ∃ fks, registered consts = some fks ∧ fk ∈ fks := by
    have hget := SharedConst.getD_registered consts
    cases hreg : registered consts with
    | none =>
        rw [hreg] at hget
        rw [← hget] at hmem
        cases hmem
    | some fks =>
        rw [hreg] at hget
        exact ⟨fks, rfl, (congrArg (fk ∈ ·) hget).mpr hmem⟩
  obtain ⟨fks, hreg, hfk⟩ := hmap
  have hload : r.val fk = valueIn width (d.restore src.words (statics fid)).words fk := by
    rw [hval, hreg]
    exact foldl_load_of_mem _ hfk val
  rw [hload, valueIn_eq, valueIn_eq]
  have hsize : (statics fid).size.toNat = fid := by
    rw [statics, UInt32.toNat_ofNat']
    exact Nat.mod_eq_of_lt hfid
  apply List.map_congr_left
  intro i hi
  rw [restore_words, if_pos]
  have hlt : i < (width fk).dsmSizeOf := List.mem_range.mp hi
  refine ⟨rfl, ?_⟩
  calc fk + i < fk + (width fk).dsmSizeOf := Nat.add_lt_add_left hlt fk
    _ ≤ fid := hin
    _ = (statics fid).size.toNat := hsize.symm

/-- The list is gone when the master restarts, so its copies are those from before. -/
theorem val_rcMaster {initCheckpoint : Copies → Copies} {checkpoint : Int} {r : Restarted}
    (h : rcMaster width fuel sizes consts initCheckpoint checkpoint d file = some r) :
    r.val = initCheckpoint (initial width) := by
  rw [rcMaster] at h
  split at h
  · obtain ⟨st, -, hval⟩ := val_doRestart h
    exact hval
  · cases h

/-- The `DoRestart` of the user finds a constant with the value of the checkpoint exactly when that
value is the one from before the restart: 0, or what the constructor of the checkpoint object assigned.
The master gets that far unless the number of objects is a negative `int`. -/
theorem constants_after_restart_iff (width : FieldKey → Width)
    (hfile : doCheckPoint fuel true fid src junk p = some file)
    (consts : List FieldKey) (initCheckpoint : Copies → Copies) {checkpoint : Int} (hcheckpoint : 0 ≤ checkpoint)
    (d : Dsm) :
    (∀ r, rcMaster width fuel (p.members.map List.length) consts initCheckpoint checkpoint d file = some r →
      ((∀ fk ∈ consts, r.val fk = valueIn width src.words fk) ↔
        ∀ fk ∈ consts, initCheckpoint (initial width) fk = valueIn width src.words fk)) ∧
    ((∀ key ∈ p.objectList, key < two32) → p.objectList.card < 2 ^ 31 →
      ∃ r, rcMaster width fuel (p.members.map List.length) consts initCheckpoint checkpoint d file = some r) := by
  constructor
  · intro r hr
    rw [val_rcMaster hr]
  · intro hkeys hshort
    have hrestart := doRestart_doCheckPoint hkeys hshort hfile d
    rw [← doRestart_dsm width none (initCheckpoint (initial width))] at hrestart
    obtain ⟨r, hr, -⟩ := Option.map_eq_some_iff.mp hrestart
    exact ⟨r, (if_pos hcheckpoint).trans hr⟩

/-! ## A program with one constant -/

/-- The constant is 7 when the checkpoint is taken; another variable is registered after it. -/
def sevenSet : Dsm := ⟨fun key fldid => if key = 0 ∧ fldid = 2 then 7 else 0, fun _ => none⟩

/-- The constructor of the checkpoint object assigns 7. -/
def assignSeven (val : Copies) : Copies := Function.update val 2 [7]

/-- The file of the master; there are no other objects. -/
def sevenFile : Option (List Byte) := doCheckPoint 2 true 4 sevenSet (fun _ => (0, 0)) ⟨∅, []⟩

theorem constants_after_restart_assigned :
    ∃ file, sevenFile = some file ∧
      ∃ r, rcMaster (fun _ => .four) 2 [] [2] assignSeven 0 Dsm.empty file = some r ∧
        ∀ fk ∈ [2], r.val fk = valueIn (fun _ => .four) sevenSet.words fk := by
  obtain ⟨file, hfile⟩ : ∃ file, sevenFile = some file := Option.isSome_iff_exists.mp (by decide +kernel)
  have hiff := constants_after_restart_iff (fun _ => .four) hfile [2] assignSeven (Int.le_refl 0) Dsm.empty
  obtain ⟨r, hr⟩ := hiff.2 (by decide) (by decide)
  exact ⟨file, hfile, r, hr, (hiff.1 r hr).mpr (by decide)⟩

/-- The constant is 0 after the restart. -/
theorem constant_not_restored :
    valueIn (fun _ => .four) sevenSet.words 2 = [7] ∧
      ∃ file, sevenFile = some file ∧
        ∃ r, rcMaster (fun _ => .four) 2 [] [2] id 0 Dsm.empty file = some r ∧ r.val 2 = [0] := by
  have hval : (sevenFile.bind fun file =>
      (rcMaster (fun _ => .four) 2 [] [2] id 0 Dsm.empty file).map (·.val 2)) = some [0] := by
    decide +kernel
  obtain ⟨file, hfile, hval⟩ := Option.bind_eq_some_iff.mp hval
  obtain ⟨r, hr, hval⟩ := Option.map_eq_some_iff.mp hval
  exact ⟨rfl, file, hfile, r, hr, hval⟩

end Restart

end Dogee.RestartConst
