import Mathlib
import SignalLab.Proofs.CommandLine.Preparation
import SignalLab.Proofs.Disk.Keeping
import SignalLab.Report

/-!
# How a report is written

A report is written in pieces, and each of them may be refused. What the file holds in the end does not
tell where it was cut: it is what the medium keeps of the whole report (`run_writePieces`,
`run_write`). How the writing ends does tell, for a full piece is refused to the report and the last one
to the system. A path that cannot be opened is refused before anything is written.
-/

namespace SignalLab.Report

variable {medium : Medium} {place : Location} {k : Keeping}

/-! ## Pieces -/

/-- Bytes and pieces behind them, put together. -/
def joined (written : ByteArray) (ps : List ByteArray) : ByteArray := ps.foldl (· ++ ·) written

theorem joined_nil (written : ByteArray) : joined written [] = written := rfl

theorem joined_cons (written piece : ByteArray) (ps : List ByteArray) :
    joined written (piece :: ps) = joined (written ++ piece) ps := rfl

/-- The last piece is the last one behind the first, if there is one behind it. -/
theorem joined_dropLast (written piece next : ByteArray) (ps : List ByteArray) :
    joined written (piece :: next :: ps).dropLast =
      joined (written ++ piece) (next :: ps).dropLast := by
  rw [List.dropLast_cons_cons, joined_cons]

theorem joined_append (written : ByteArray) (ps ps' : List ByteArray) :
    joined written (ps ++ ps') = joined (joined written ps) ps' := List.foldl_append

/-- What has been put together stands in front of what comes behind it. -/
theorem exists_joined_eq (written : ByteArray) (ps : List ByteArray) :
    ∃ more, joined written ps = written ++ more := by
  induction ps generalizing written with
  | nil => exact ⟨.empty, ByteArray.append_empty.symm⟩
  | cons piece ps ih =>
    obtain ⟨more, hmore⟩ := ih (written ++ piece)
    exact ⟨piece ++ more, by rw [joined_cons, hmore, ByteArray.append_assoc]⟩

theorem size_le_size_joined (written : ByteArray) (ps : List ByteArray) :
    written.size ≤ (joined written ps).size := by
  obtain ⟨more, hmore⟩ := exists_joined_eq written ps
  rw [hmore, ByteArray.size_append]
  exact Nat.le_add_right _ _

/-- Some full pieces are the first bytes of the whole. -/
theorem joined_range (bytes : ByteArray) (n : ℕ) :
    joined .empty ((List.range n).map fun i =>
      bytes.extract (i * pieceSize) ((i + 1) * pieceSize)) = bytes.extract 0 (n * pieceSize) := by
  induction n with
  | zero =>
    rw [Nat.zero_mul, ByteArray.extract_eq_empty_iff.mpr (Nat.min_le_left _ _)]
    rfl
  | succ n ih =>
    rw [List.range_succ, List.map_append, joined_append, ih, List.map_singleton]
    change bytes.extract 0 (n * pieceSize) ++ bytes.extract (n * pieceSize) ((n + 1) * pieceSize) = _
    rw [ByteArray.extract_append_extract, Nat.zero_min,
      Nat.max_eq_right (Nat.mul_le_mul_right _ (Nat.le_succ n))]

/-- **The pieces make up the whole.** -/
theorem joined_pieces (bytes : ByteArray) : joined .empty (pieces bytes) = bytes := by
  rw [pieces, joined_range]
  have hle : bytes.size ≤ (bytes.size + (pieceSize - 1)) / pieceSize * pieceSize := by
    simp only [pieceSize]
    omega
  refine ByteArray.ext ?_
  rw [ByteArray.data_extract, Array.extract_eq_self_of_le hle]

/-- The size of all pieces but the last. -/
def sizeOfFull (size : ℕ) : ℕ := (size - 1) / pieceSize * pieceSize

theorem size_joined_dropLast (bytes : ByteArray) :
    (joined .empty (pieces bytes).dropLast).size = sizeOfFull bytes.size := by
  have hcount : (bytes.size + (pieceSize - 1)) / pieceSize - 1 = (bytes.size - 1) / pieceSize := by
    simp only [pieceSize]
    omega
  have hrange (n : ℕ) : (List.range n).dropLast = List.range (n - 1) := by
    rw [List.dropLast_eq_take, List.length_range, List.take_range, Nat.min_eq_left (Nat.sub_le n 1)]
  rw [pieces, ← List.map_dropLast, hrange, joined_range, hcount, ByteArray.size_extract, sizeOfFull]
  simp only [pieceSize]
  omega

/-! ## Endings -/

/-- How the writing of pieces ends: well if there is room for all of them, and otherwise with the fault
of the system for the last piece and with one of the report for the others. -/
def ending (k : Keeping) (size full : ℕ) : Except Failure Unit :=
  match k.refusal? size with
  | none => .ok ()
  | some fault => .error (if (k.refusal? full).isNone then .stopped fault else .report fault.message)

theorem ending_of_fits {size full : ℕ} (h : k.refusal? size = none) : ending k size full = .ok () := by
  rw [ending, h]

/-- Whatever is refused to a report, the run ends with the code for it. -/
theorem ending_of_refused {size full : ℕ} {fault : DiskFault} (h : k.refusal? size = some fault) :
    ∃ failure, ending k size full = .error failure ∧ failure.exitCode = 1 := by
  rw [ending, h]
  refine ⟨_, rfl, ?_⟩
  split <;> rfl

/-! ## Runs -/

theorem run_append (place : Location) (more : ByteArray) (scene : SceneOn medium) :
    (Host.append (m := StateM (SceneOn medium)) place more).run scene =
      ((scene.disk.append medium place more).1,
        { scene with disk := (scene.disk.append medium place more).2 }) := rfl

/-- **The file holds what is kept of all pieces**, also if some of them have been refused. -/
theorem run_writePieces (d : Disk) (hplace : place ≠ []) (ps : List ByteArray) {written : ByteArray}
    (hfits : (medium place).refusal? written.size = none) (scene : SceneOn medium) :
    (writePieces place ps : StateM (SceneOn medium) _).run
        { scene with disk := d.put place (.file ((medium place).kept written)) } =
      (ending (medium place) (joined written ps).size (joined written ps.dropLast).size,
        { scene with disk := d.put place (.file ((medium place).kept (joined written ps))) }) := by
  induction ps generalizing written with
  | nil =>
    rw [joined_nil, ending_of_fits hfits]
    rfl
  | cons piece rest ih =>
    rw [writePieces, StateM.run_bind_eq, run_append, Disk.append_put d hplace hfits piece]
    rcases hroom : (medium place).refusal? (written ++ piece).size with _ | fault
    · rw [Option.elim_none]
      dsimp only
      rw [ih hroom, joined_cons]
      rcases rest with _ | ⟨next, rest⟩
      · rw [joined_nil, ending_of_fits hroom, ending_of_fits hroom]
      · rw [joined_dropLast]
    · have hwhole := Keeping.refusal?_of_le hroom (size_le_size_joined _ rest)
      obtain ⟨more, hmore⟩ := exists_joined_eq (written ++ piece) rest
      rw [Option.elim_some, ending, joined_cons, hwhole, hmore,
        Keeping.kept_append_of_refused hroom]
      dsimp only
      rcases rest with _ | ⟨next, rest⟩
      · rw [List.dropLast_singleton, joined_nil, hfits]
        rfl
      · rw [joined_dropLast, Keeping.refusal?_of_le hroom (size_le_size_joined _ _)]
        rfl

/-- **What is written of a report.** Nothing, if its path cannot be opened. Otherwise the file holds
what is kept of the report, which is all of it unless it is refused. -/
theorem run_write {prices positions equity : List Float} {text : String}
    (htable : table prices positions equity = .ok text) (path : String) (scene : SceneOn medium) :
    (write prices positions equity path : StateM (SceneOn medium) _).run scene =
      match scene.disk.locateNew scene.working path with
      | .error fault => (.error (.report fault.message), scene)
      | .ok place =>
        (ending (medium place) text.utf8ByteSize (sizeOfFull text.utf8ByteSize),
          { scene with disk := scene.disk.put place (.file ((medium place).kept text.toUTF8)) }) := by
  have hcreate : (Host.create path : StateM (SceneOn medium) _).run scene =
      match scene.disk.locateNew scene.working path with
      | .error fault => (.error fault, scene)
      | .ok place => (.ok place, { scene with disk := scene.disk.put place (.file .empty) }) := by
    have hget : (get : StateM (SceneOn medium) _).run scene = (scene, scene) := rfl
    simp only [Host.create]
    rw [StateM.run_bind_eq, hget]
    dsimp only
    rw [Disk.create]
    rcases scene.disk.locateNew scene.working path with fault | place <;> rfl
  rw [write, htable]
  dsimp only
  rw [StateM.run_bind_eq, hcreate]
  rcases hplace : scene.disk.locateNew scene.working path with fault | place
  · rfl
  · dsimp only
    have hroot : place ≠ [] := Disk.ne_nil_of_find? (Disk.locateNew_cases hplace).2.1
    have hempty : (medium place).refusal? ByteArray.empty.size = none := Keeping.refusal?_zero _
    have hrun := run_writePieces scene.disk hroot (pieces text.toUTF8) hempty scene
    rw [Keeping.kept_empty, joined_pieces, size_joined_dropLast] at hrun
    exact hrun

end SignalLab.Report
