import WorldToPE.Geo.Chunk
import WorldToPE.LevelDB.DBKey
import WorldToPE.Lib.Run
import Std.Data.HashMap

/-!
# WorldToPE.Geo.ChunkManager — the chunk cache over the database

`geo/ChunkManager.java` with its three places for a chunk: the database, the map of loaded chunks
and the one-entry shortcut `lastKey` / `lastChunk`.  Chunks are objects, so the map and the shortcut
hold references into a heap; a chunk that was dropped from the map can still be reached through the
shortcut.  Operations are `EStateM` actions: an exception leaves the state as it was when it was
thrown (in particular `lastKey` is already changed when a load fails).

`getChunk_hit`, `getChunk_mapped`, `getChunk_loaded` and `getChunk_failed` say everything `getChunk`
can do; the other operations are `getChunk` followed by one method call on the chunk
(`after_exec_cases`).
-/

namespace WorldToPE

open Java Run

/-- `Chunk.Key`. -/
structure Key where
  x : Int32
  z : Int32
deriving DecidableEq, Hashable, Repr

/-- A reference to a chunk object. -/
abbrev Ref := ℕ

/-- The fields of `ChunkManager`, and the chunk objects. -/
structure ChunkManager where
  chunks : Std.HashMap Key Ref
  db : DB
  lastChunk : Option Ref
  lastKey : Option Key
  heap : List Chunk

namespace ChunkManager

abbrev M := EStateM Exn ChunkManager

/-- A manager freshly opened on a database. -/
def opened (db : DB) : ChunkManager := ⟨∅, db, none, none, []⟩

/-- The chunk object that `loadChunk` fills: empty, or read from its record. -/
def readChunk (db : DB) (key : Key) : Except Exn Chunk :=
  match getChunkData db key.x key.z with
  | some data => (Chunk.new key.x key.z).loadFromByteArray data
  | none => .ok (Chunk.new key.x key.z)

def loadChunk (key : Key) : M Ref := do
  let s ← get
  match readChunk s.db key with
  | .error e => throw e
  | .ok chunk =>
    let r := s.heap.length
    set { s with heap := s.heap ++ [chunk], chunks := s.chunks.insert key r }
    return r

/-- `getChunk`.  The result is `null` when `lastChunk` is: nothing here excludes that. -/
def getChunk (x z : Int32) : M (Option Ref) := do
  let s ← get
  let key : Key := ⟨x, z⟩
  if s.lastKey = some key then return s.lastChunk
  else
    set { s with lastKey := some key }
    let r ← match s.chunks[key]? with
      | some r => pure r
      | none => loadChunk key
    modify fun s => { s with lastChunk := some r }
    return some r

/-- A call of a reading method on the chunk that `getChunk` returned. -/
def call (r : Option Ref) (f : Chunk → Except Exn Int32) : M Int32 := do
  let s ← get
  match r.bind (s.heap[·]?) with
  | none => throw .nullPointer
  | some c =>
    match f c with
    | .error e => throw e
    | .ok v => return v

/-- A call of a writing method on the chunk that `getChunk` returned. -/
def update (r : Option Ref) (f : Chunk → Except Exn Chunk) : M Unit := do
  let s ← get
  match r, r.bind (s.heap[·]?) with
  | some r, some c =>
    match f c with
    | .error e => throw e
    | .ok c' => set { s with heap := s.heap.set r c' }
  | _, _ => throw .nullPointer

def getBlockTypeId (x y z : Int32) : M Int32 :=
  if y ≥ 128 ∨ y < 0 then return 0
  else do
    let r ← getChunk (x >>> 4) (z >>> 4)
    call r fun c => c.getBlockTypeId (x &&& 15) y (z &&& 15)

def getBlockData (x y z : Int32) : M Int32 :=
  if y ≥ 128 ∨ y < 0 then return 0
  else do
    let r ← getChunk (x >>> 4) (z >>> 4)
    call r fun c => c.getBlockData (x &&& 15) y (z &&& 15)

def setBlockTypeId (x y z type : Int32) : M Unit :=
  if y < 128 ∧ y ≥ 0 then do
    let r ← getChunk (x >>> 4) (z >>> 4)
    update r fun c => c.setBlockTypeId (x &&& 15) y (z &&& 15) type
  else return ()

def setBlockData (x y z data : Int32) : M Unit :=
  if y < 128 ∧ y ≥ 0 then do
    let r ← getChunk (x >>> 4) (z >>> 4)
    update r fun c => c.setBlockData (x &&& 15) y (z &&& 15) data
  else return ()

def getHighestBlockYAt (x z : Int32) : M Int32 := do
  let r ← getChunk (x >>> 4) (z >>> 4)
  call r fun c => c.getHighestBlockYAt (x &&& 15) (z &&& 15)

def saveChunk (chunk : Chunk) : M Unit :=
  modify fun s => { s with db := writeChunkData s.db chunk.x chunk.z chunk.saveToByteArray }

/-- The loop of `saveAll` over the entries of the map, `savedCount` chunks saved so far. -/
def saveEntries : List (Key × Ref) → Int32 → M Int32
  | [], savedCount => return savedCount
  | (key, r) :: entries, savedCount => do
    let s ← get
    match s.heap[r]? with
    | none => throw .nullPointer
    | some value =>
      if key.x ≠ value.x ∨ key.z ≠ value.z then throw .assertion
      else if value.needsSaving then do
        saveChunk value
        saveEntries entries (savedCount + 1)
      else saveEntries entries savedCount

def saveAll : M Int32 := do
  let s ← get
  saveEntries s.chunks.toList 0

def unloadChunks (saveFirst : Bool) : M Unit := do
  if saveFirst then
    let _ ← saveAll
  modify fun s => { s with chunks := ∅ }

/-! ## Operations and runs -/

/-- The public operations of a manager. -/
inductive Op
  | getBlockTypeId (x y z : Int32)
  | getBlockData (x y z : Int32)
  | setBlockTypeId (x y z type : Int32)
  | setBlockData (x y z data : Int32)
  | getChunk (x z : Int32)
  | getHighestBlockYAt (x z : Int32)
  | saveAll
  | unloadChunks (saveFirst : Bool)
deriving DecidableEq, Repr

/-- What an operation returns. -/
inductive Outcome
  | unit
  | int (n : Int32)
  | chunk (r : Option Ref)
deriving DecidableEq, Repr

def exec : Op → M Outcome
  | .getBlockTypeId x y z => return .int (← getBlockTypeId x y z)
  | .getBlockData x y z => return .int (← getBlockData x y z)
  | .setBlockTypeId x y z type => do setBlockTypeId x y z type; return .unit
  | .setBlockData x y z data => do setBlockData x y z data; return .unit
  | .getChunk x z => return .chunk (← getChunk x z)
  | .getHighestBlockYAt x z => return .int (← getHighestBlockYAt x z)
  | .saveAll => return .int (← saveAll)
  | .unloadChunks saveFirst => do unloadChunks saveFirst; return .unit

/-- The guard of the block accessors of the manager. -/
def inHeight (y : Int32) : Prop := 0 ≤ y.toInt ∧ y.toInt < 128

instance (y : Int32) : Decidable (inHeight y) := inferInstanceAs (Decidable (_ ∧ _))

/-- The chunk that holds column `(x, z)`. -/
def keyOf (x z : Int32) : Key := ⟨x >>> 4, z >>> 4⟩

/-- The chunk an operation asks `getChunk` for. -/
def Op.key? : Op → Option Key
  | .getBlockTypeId x y z => if inHeight y then some (keyOf x z) else none
  | .getBlockData x y z => if inHeight y then some (keyOf x z) else none
  | .setBlockTypeId x y z _ => if inHeight y then some (keyOf x z) else none
  | .setBlockData x y z _ => if inHeight y then some (keyOf x z) else none
  | .getChunk x z => some ⟨x, z⟩
  | .getHighestBlockYAt x z => some (keyOf x z)
  | .saveAll => none
  | .unloadChunks _ => none

theorem lt_height_iff {y : Int32} : (y < 128 ∧ y ≥ 0) ↔ inHeight y := by
  have h0 : (0 : Int32).toInt = 0 := rfl
  have h128 : (128 : Int32).toInt = 128 := rfl
  rw [ge_iff_le, Int32.lt_iff_toInt_lt, Int32.le_iff_toInt_le, h0, h128]
  exact and_comm

theorem ge_height_iff {y : Int32} : (y ≥ 128 ∨ y < 0) ↔ ¬ inHeight y := by
  have h0 : (0 : Int32).toInt = 0 := rfl
  have h128 : (128 : Int32).toInt = 128 := rfl
  rw [ge_iff_le, Int32.lt_iff_toInt_lt, Int32.le_iff_toInt_le, h0, h128]
  unfold inHeight
  omega

/-! ## What `getChunk` does -/

theorem getChunk_hit {s : ChunkManager} {x z : Int32} (h : s.lastKey = some ⟨x, z⟩) :
    getChunk x z s = .ok s.lastChunk s := by
  simp [getChunk, h]

theorem getChunk_mapped {s : ChunkManager} {x z : Int32} {r : Ref} (h : s.lastKey ≠ some ⟨x, z⟩)
    (hr : s.chunks[(⟨x, z⟩ : Key)]? = some r) :
    getChunk x z s = .ok (some r) { s with lastKey := some ⟨x, z⟩, lastChunk := some r } := by
  simp [getChunk, h, hr]

theorem getChunk_loaded {s : ChunkManager} {x z : Int32} {c : Chunk}
    (h : s.lastKey ≠ some ⟨x, z⟩) (hn : s.chunks[(⟨x, z⟩ : Key)]? = none)
    (hc : readChunk s.db ⟨x, z⟩ = .ok c) :
    getChunk x z s = .ok (some s.heap.length)
      ⟨s.chunks.insert ⟨x, z⟩ s.heap.length, s.db, some s.heap.length, some ⟨x, z⟩,
        s.heap ++ [c]⟩ := by
  simp [getChunk, loadChunk, h, hn, hc]

theorem getChunk_failed {s : ChunkManager} {x z : Int32} {e : Exn}
    (h : s.lastKey ≠ some ⟨x, z⟩) (hn : s.chunks[(⟨x, z⟩ : Key)]? = none)
    (hc : readChunk s.db ⟨x, z⟩ = .error e) :
    getChunk x z s = .error e { s with lastKey := some ⟨x, z⟩ } := by
  simp [getChunk, loadChunk, h, hn, hc]

/-! ## What the method calls do -/

theorem call_ok {s : ChunkManager} {r : Ref} {c : Chunk} {f : Chunk → Except Exn Int32} {v : Int32}
    (hc : s.heap[r]? = some c) (hf : f c = .ok v) : call (some r) f s = .ok v s := by
  simp [call, hc, hf]

theorem update_ok {s : ChunkManager} {r : Ref} {c c' : Chunk} {f : Chunk → Except Exn Chunk}
    (hc : s.heap[r]? = some c) (hf : f c = .ok c') :
    update (some r) f s = .ok () { s with heap := s.heap.set r c' } := by
  simp [update, hc, hf]

theorem after_call (r : Option Ref) (f : Chunk → Except Exn Int32) (s : ChunkManager) :
    after (call r f) s = s := by
  unfold call
  rw [after_bind, get_apply]
  dsimp only
  cases r.bind (s.heap[·]?) with
  | none => rfl
  | some c =>
    dsimp only
    cases f c <;> rfl

theorem after_update (r : Option Ref) (f : Chunk → Except Exn Chunk) (s : ChunkManager) :
    after (update r f) s = s ∨ ∃ i c c', s.heap[i]? = some c ∧ f c = .ok c' ∧
      after (update r f) s = { s with heap := s.heap.set i c' } := by
  cases r with
  | none => exact Or.inl rfl
  | some r =>
    cases hc : s.heap[r]? with
    | none =>
      left
      simp [after, update, hc]
    | some c =>
      cases hf : f c with
      | error e =>
        left
        simp [after, update, hc, hf]
      | ok c' => exact Or.inr ⟨r, c, c', hc, hf, after_of_ok (update_ok hc hf)⟩

/-- The shortcut's key is set first, so it is the key asked for however `getChunk` ends. -/
theorem lastKey_getChunk (x z : Int32) (s : ChunkManager) :
    (after (getChunk x z) s).lastKey = some ⟨x, z⟩ := by
  by_cases h : s.lastKey = some ⟨x, z⟩
  · rw [after_of_ok (getChunk_hit h), h]
  · cases hr : s.chunks[(⟨x, z⟩ : Key)]? with
    | some r => rw [after_of_ok (getChunk_mapped h hr)]
    | none =>
      cases hc : readChunk s.db ⟨x, z⟩ with
      | error e => rw [after_of_error (getChunk_failed h hr hc)]
      | ok c => rw [after_of_ok (getChunk_loaded h hr hc)]

/-! ## The operations on a chunk -/

theorem coords_setBlockTypeId {x y z type : Int32} (c c' : Chunk)
    (h : c.setBlockTypeId x y z type = .ok c') : c'.x = c.x ∧ c'.z = c.z := by
  by_cases hr : Chunk.inRange x y z = true
  · obtain ⟨c2, hc2, he⟩ := c.setBlockTypeId_spec hr type
    obtain rfl := Except.ok.inj (h.symm.trans hc2)
    exact ⟨he.x, he.z⟩
  · rw [Chunk.setBlockTypeId, if_neg hr] at h
    obtain rfl := Except.ok.inj h
    exact ⟨rfl, rfl⟩

theorem coords_setBlockData {x y z data : Int32} (c c' : Chunk)
    (h : c.setBlockData x y z data = .ok c') : c'.x = c.x ∧ c'.z = c.z := by
  by_cases hr : Chunk.inRange x y z = true
  · obtain ⟨c2, hc2, he⟩ := c.setBlockData_spec hr data
    obtain rfl := Except.ok.inj (h.symm.trans hc2)
    exact ⟨he.x, he.z⟩
  · rw [Chunk.setBlockData, if_neg hr] at h
    obtain rfl := Except.ok.inj h
    exact ⟨rfl, rfl⟩

/-- **An operation on a chunk** asks for it, and then reads it, changes it without moving it, or does
nothing more. -/
theorem after_exec_cases {op : Op} {k : Key} (hk : op.key? = some k) :
    (∃ f, ∀ s, after (exec op) s = after (do let r ← getChunk k.x k.z; call r f) s) ∨
    (∃ f, (∀ c c', f c = .ok c' → c'.x = c.x ∧ c'.z = c.z) ∧
      ∀ s, after (exec op) s = after (do let r ← getChunk k.x k.z; update r f) s) ∨
    ∀ s, after (exec op) s = after (getChunk k.x k.z) s := by
  cases op with
  | getBlockTypeId x y z =>
    obtain ⟨hy, hk⟩ := Option.ite_none_right_eq_some.mp hk
    obtain rfl := Option.some.inj hk
    refine Or.inl ⟨fun c => c.getBlockTypeId (x &&& 15) y (z &&& 15), fun s => ?_⟩
    show after (Outcome.int <$> getBlockTypeId x y z) s = _
    rw [after_map, getBlockTypeId, if_neg (by rw [ge_height_iff, not_not]; exact hy)]
    rfl
  | getBlockData x y z =>
    obtain ⟨hy, hk⟩ := Option.ite_none_right_eq_some.mp hk
    obtain rfl := Option.some.inj hk
    refine Or.inl ⟨fun c => c.getBlockData (x &&& 15) y (z &&& 15), fun s => ?_⟩
    show after (Outcome.int <$> getBlockData x y z) s = _
    rw [after_map, getBlockData, if_neg (by rw [ge_height_iff, not_not]; exact hy)]
    rfl
  | setBlockTypeId x y z type =>
    obtain ⟨hy, hk⟩ := Option.ite_none_right_eq_some.mp hk
    obtain rfl := Option.some.inj hk
    refine Or.inr (Or.inl ⟨fun c => c.setBlockTypeId (x &&& 15) y (z &&& 15) type,
      coords_setBlockTypeId, fun s => ?_⟩)
    show after (Bind.bind (setBlockTypeId x y z type) fun _ => pure Outcome.unit) s = _
    rw [after_bind_pure, setBlockTypeId, if_pos (lt_height_iff.mpr hy)]
    rfl
  | setBlockData x y z data =>
    obtain ⟨hy, hk⟩ := Option.ite_none_right_eq_some.mp hk
    obtain rfl := Option.some.inj hk
    refine Or.inr (Or.inl ⟨fun c => c.setBlockData (x &&& 15) y (z &&& 15) data,
      coords_setBlockData, fun s => ?_⟩)
    show after (Bind.bind (setBlockData x y z data) fun _ => pure Outcome.unit) s = _
    rw [after_bind_pure, setBlockData, if_pos (lt_height_iff.mpr hy)]
    rfl
  | getChunk x z =>
    obtain rfl := Option.some.inj hk
    refine Or.inr (Or.inr fun s => ?_)
    show after (Outcome.chunk <$> getChunk x z) s = _
    rw [after_map]
  | getHighestBlockYAt x z =>
    obtain rfl := Option.some.inj hk
    refine Or.inl ⟨fun c => c.getHighestBlockYAt (x &&& 15) (z &&& 15), fun s => ?_⟩
    show after (Outcome.int <$> getHighestBlockYAt x z) s = _
    rw [after_map]
    rfl
  | saveAll => cases hk
  | unloadChunks saveFirst => cases hk

/-- A fresh manager reads the record of the chunk asked for, and nothing else. -/
theorem result_opened (db : DB) (x z : Int32) (f : Chunk → Except Exn Int32) :
    result (do let r ← getChunk x z; call r f) (opened db) = (readChunk db ⟨x, z⟩ >>= f) := by
  have hk : (opened db).lastKey ≠ some ⟨x, z⟩ := by
    intro h
    cases h
  have hn : (opened db).chunks[(⟨x, z⟩ : Key)]? = none := Std.HashMap.getElem?_empty
  unfold result
  cases hc : readChunk db ⟨x, z⟩ with
  | error e =>
    rw [bind_of_error (getChunk_failed hk hn hc)]
    rfl
  | ok c =>
    rw [bind_of_ok (getChunk_loaded hk hn hc)]
    show _ = f c
    cases hf : f c with
    | error e => simp [call, opened, hf]
    | ok v => simp [call, opened, hf]

end ChunkManager

end WorldToPE
