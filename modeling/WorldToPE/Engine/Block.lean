import WorldToPE.Engine.Merger
import WorldToPE.Engine.WriteBatch

/-!
# WorldToPE.Engine.Block — sorted entries in a block

`table/block_builder.cc` and `table/block.cc`.  A block is a sequence of entries, each with the part of
its key that the key before it does not share, and behind them the offsets of the restart points,
entries that share nothing.  An iterator searches the restart points by bisection and walks through the
entries from there; backwards, it walks from the restart point before its entry.

`Block.iterator_at_built`: the iterator over a block that was built is a cursor in the list of the
entries that were added.
-/

namespace Leveldb

open Cursor

/-! ## Building -/

/-- The state of a `BlockBuilder`. -/
structure BlockBuilder where
  buffer : Slice
  restarts : List UInt32
  /-- The number of entries since the last restart point. -/
  counter : ℕ
  last_key : Slice

namespace BlockBuilder

/-- The constructor, and `Reset`. -/
def new : BlockBuilder := ⟨[], [0], 0, []⟩

def currentSizeEstimate (b : BlockBuilder) : ℕ := b.buffer.length + b.restarts.length * 4 + 4

/-- What stands in front of an entry. -/
def putLengths (dst : Slice) (shared non_shared value_size : ℕ) : Slice :=
  putVarint32 (putVarint32 (putVarint32 dst (UInt32.ofNat shared)) (UInt32.ofNat non_shared))
    (UInt32.ofNat value_size)

def add (block_restart_interval : ℕ) (b : BlockBuilder) (key value : Slice) : BlockBuilder :=
  let b' := if b.counter < block_restart_interval then b
    -- Restart compression
    else { b with restarts := b.restarts ++ [UInt32.ofNat b.buffer.length], counter := 0 }
  let shared := if b.counter < block_restart_interval then sharedLength b.last_key key else 0
  { b' with
    buffer := putLengths b.buffer shared (key.length - shared) value.length ++ key.drop shared ++ value
    last_key := b.last_key.take shared ++ key.drop shared
    counter := b'.counter + 1 }

def finish (b : BlockBuilder) : Slice :=
  putFixed32 (b.restarts.foldl putFixed32 b.buffer) (UInt32.ofNat b.restarts.length)

/-- The block of a list of entries. -/
def build (block_restart_interval : ℕ) (entries : List Entry) : Slice :=
  (entries.foldl (fun b e => b.add block_restart_interval e.1 e.2) new).finish

end BlockBuilder

/-! ## Reading -/

/-- A `Block`: `size` is zero when its contents are bad. -/
structure Block where
  data : Slice
  size : ℕ
  restart_offset : ℕ

/-- What `DecodeEntry` reads, and the bytes from the key on. -/
structure EntryLengths where
  shared : UInt32
  non_shared : UInt32
  value_length : UInt32
  rest : Slice

/-- `DecodeEntry` without its fast path. -/
def decodeLengths (p : Slice) : Option EntryLengths :=
  (getVarint32Ptr p).bind fun (shared, p) => (getVarint32Ptr p).bind fun (non_shared, p) =>
    (getVarint32Ptr p).map fun (value_length, p) => ⟨shared, non_shared, value_length, p⟩

/-- The input ends at the limit. -/
def decodeEntry : Slice → Option EntryLengths
  | shared :: non_shared :: value_length :: rest =>
    let d :=
      if (shared.toUInt32 ||| non_shared.toUInt32 ||| value_length.toUInt32) < 128 then
        -- Fast path: all three values are encoded in one byte each
        some ⟨shared.toUInt32, non_shared.toUInt32, value_length.toUInt32, rest⟩
      else decodeLengths (shared :: non_shared :: value_length :: rest)
    d.filter fun d => ¬ UInt32.ofNat d.rest.length < d.non_shared + d.value_length
  | _ => none

/-- `Block::Iter`.  Offsets count from the start of the block. -/
structure BlockIter where
  data : Slice
  /-- The offset of the restart array. -/
  restarts : ℕ
  num_restarts : ℕ
  /-- The offset of the current entry: `restarts` if the iterator is not valid. -/
  current : ℕ
  restart_index : ℕ
  key : Slice
  /-- Where the value begins, and its size. -/
  value : ℕ × ℕ
  status : Status

namespace BlockIter

def new (data : Slice) (restarts num_restarts : ℕ) : BlockIter :=
  ⟨data, restarts, num_restarts, restarts, num_restarts, [], (0, 0), .ok⟩

def nextEntryOffset (it : BlockIter) : ℕ := it.value.1 + it.value.2

def getRestartPoint (it : BlockIter) (index : ℕ) : ℕ :=
  (decodeFixed32 (it.data.drop (it.restarts + index * 4))).toNat

/-- `current` will be fixed by `parseNextKey`, which starts at the end of the value. -/
def seekToRestartPoint (it : BlockIter) (index : ℕ) : BlockIter :=
  { it with key := [], restart_index := index, value := (it.getRestartPoint index, 0) }

/-- No more entries. -/
def markInvalid (it : BlockIter) : BlockIter :=
  { it with current := it.restarts, restart_index := it.num_restarts }

def corruptionError (it : BlockIter) : BlockIter :=
  { it.markInvalid with status := .corruption "bad entry in block", key := [], value := (0, 0) }

/-- The bytes from an offset to the restart array. -/
def bytesFrom (it : BlockIter) (offset : ℕ) : Slice := (it.data.take it.restarts).drop offset

/-- The loop that moves `restart_index` up to the entry at `current`. -/
def skipRestarts (it : BlockIter) (current index : ℕ) : ℕ :=
  if index + 1 < it.num_restarts ∧ it.getRestartPoint (index + 1) < current then
    skipRestarts it current (index + 1)
  else index
termination_by it.num_restarts - index

/-- The state at an entry that was decoded. -/
def atEntry (it : BlockIter) (current : ℕ) (d : EntryLengths) : BlockIter :=
  let p := it.restarts - d.rest.length
  { it with
    current := current
    key := it.key.take d.shared.toNat ++ d.rest.take d.non_shared.toNat
    value := (p + d.non_shared.toNat, d.value_length.toNat)
    restart_index := it.skipRestarts current it.restart_index }

/-- The flag says whether there was an entry. -/
def parseNextKey (it : BlockIter) : BlockIter × Bool :=
  let current := it.nextEntryOffset
  if it.restarts ≤ current then (it.markInvalid, false)
  else
    match decodeEntry (it.bytesFrom current) with
    | none => (it.corruptionError, false)
    | some d =>
      if it.key.length < d.shared.toNat then (it.corruptionError, false) else (it.atEntry current d, true)

end BlockIter

theorem decodeLengths_split {p : Slice} {d : EntryLengths} (h : decodeLengths p = some d) :
    d.rest.length + 3 ≤ p.length := by
  obtain ⟨⟨s, p₁⟩, h₁, h⟩ := Option.bind_eq_some_iff.mp h
  obtain ⟨⟨n, p₂⟩, h₂, h⟩ := Option.bind_eq_some_iff.mp h
  obtain ⟨⟨v, p₃⟩, h₃, rfl⟩ := Option.map_eq_some_iff.mp h
  have hlen {q q' : Slice} {x : UInt32} (h : getVarint32 q = some (x, q')) : q'.length < q.length := by
    rw [getVarint32_eq] at h
    obtain ⟨⟨m, r⟩, hm, he⟩ := Option.map_eq_some_iff.mp h
    obtain ⟨-, rfl⟩ := Prod.mk.inj he
    exact Varint.length_of_decode hm
  have := hlen h₁
  have := hlen h₂
  have := hlen h₃
  show p₃.length + 3 ≤ p.length
  omega

theorem length_decodeEntry {p : Slice} {d : EntryLengths} (h : decodeEntry p = some d) :
    d.rest.length + 3 ≤ p.length := by
  match p, h with
  | a :: b :: c :: rest, h =>
    obtain ⟨hd, -⟩ := Option.filter_eq_some_iff.mp h
    split_ifs at hd with hfast
    · obtain rfl := Option.some.inj hd
      exact le_rfl
    · exact decodeLengths_split hd

namespace BlockIter

/-- Every entry that is parsed lies behind the one before it. -/
theorem parseNextKey_advances {it it' : BlockIter} (h : it.parseNextKey = (it', true)) :
    it'.restarts = it.restarts ∧ it.nextEntryOffset < it.restarts ∧
      it.nextEntryOffset < it'.nextEntryOffset := by
  unfold parseNextKey at h
  by_cases hend : it.restarts ≤ it.nextEntryOffset
  · simp only [if_pos hend, Prod.mk.injEq, Bool.false_eq_true, and_false] at h
  rw [if_neg hend] at h
  cases hd : decodeEntry (it.bytesFrom it.nextEntryOffset) with
  | none => simp only [hd, Prod.mk.injEq, Bool.false_eq_true, and_false] at h
  | some d =>
    have hlen := length_decodeEntry hd
    unfold bytesFrom at hlen
    rw [List.length_drop, List.length_take] at hlen
    simp only [hd] at h
    split_ifs at h with hkey
    · cases h
    obtain ⟨rfl, -⟩ := Prod.mk.inj h
    refine ⟨rfl, not_le.mp hend, ?_⟩
    show it.nextEntryOffset < it.restarts - d.rest.length + d.non_shared.toNat + d.value_length.toNat
    omega

/-- `ParseNextKey` until there is no entry or the next one begins at `bound` or behind it. -/
def parseUntil (bound : ℕ) (it : BlockIter) : BlockIter :=
  match _h : it.parseNextKey with
  | (it', true) => if it'.nextEntryOffset < bound then parseUntil bound it' else it'
  | (it', false) => it'
termination_by it.restarts - it.nextEntryOffset
decreasing_by
  obtain ⟨h1, h2, h3⟩ := parseNextKey_advances _h
  omega

/-- The last restart point before `original`, from the restart point `index` down. -/
def restartBefore (it : BlockIter) (original : ℕ) : ℕ → Option ℕ
  | 0 => if original ≤ it.getRestartPoint 0 then none else some 0
  | index + 1 =>
    if original ≤ it.getRestartPoint (index + 1) then restartBefore it original index else some (index + 1)

def prev (it : BlockIter) : BlockIter :=
  match it.restartBefore it.current it.restart_index with
  | none => it.markInvalid
  | some index => (it.seekToRestartPoint index).parseUntil it.current

def next (it : BlockIter) : BlockIter := it.parseNextKey.1

def seekToFirst (it : BlockIter) : BlockIter := (it.seekToRestartPoint 0).parseNextKey.1

def seekToLast (it : BlockIter) : BlockIter :=
  (it.seekToRestartPoint (it.num_restarts - 1)).parseUntil it.restarts

variable (comparator : Comparator)

/-- Binary search in restart array to find the last restart point with a key < target. -/
def searchRestarts (it : BlockIter) (target : Slice) (left right : ℕ) : Option ℕ :=
  if left < right then
    let mid := (left + right + 1) / 2
    match decodeEntry (it.bytesFrom (it.getRestartPoint mid)) with
    | none => none
    | some d =>
      if d.shared ≠ 0 then none
      else if comparator.compare (d.rest.take d.non_shared.toNat) target = .lt then
        searchRestarts it target mid right
      else searchRestarts it target left (mid - 1)
  else some left
termination_by right - left

/-- Linear search for first key >= target. -/
def parseTo (target : Slice) (it : BlockIter) : BlockIter :=
  match _h : it.parseNextKey with
  | (it', true) => if comparator.compare it'.key target ≠ .lt then it' else parseTo target it'
  | (it', false) => it'
termination_by it.restarts - it.nextEntryOffset
decreasing_by
  obtain ⟨h1, h2, h3⟩ := parseNextKey_advances _h
  omega

def seek (it : BlockIter) (target : Slice) : BlockIter :=
  match it.searchRestarts comparator target 0 (it.num_restarts - 1) with
  | none => it.corruptionError
  | some left => (it.seekToRestartPoint left).parseTo comparator target

def current? (it : BlockIter) : Option Entry :=
  if it.current < it.restarts then some (it.key, (it.data.drop it.value.1).take it.value.2) else none

end BlockIter

/-- What `Block::NewIterator` makes: an `EmptyIterator` with a status, or a `Block::Iter`. -/
inductive BlockIterator
  | empty (status : Status)
  | iter (it : BlockIter)

namespace Block

/-- `NumRestarts`: the number in the last four bytes. -/
def numRestarts (data : Slice) (size : ℕ) : ℕ := (decodeFixed32 (data.drop (size - 4))).toNat

/-- The constructor. -/
def new (contents : Slice) : Block :=
  let size := contents.length
  if size < 4 then ⟨contents, 0, 0⟩
  else
    let max_restarts_allowed := (size - 4) / 4
    if max_restarts_allowed < numRestarts contents size then ⟨contents, 0, 0⟩
    else ⟨contents, size, size - (1 + numRestarts contents size) * 4⟩

def newIterator (b : Block) : BlockIterator :=
  if b.size < 4 then .empty (.corruption "bad block contents")
  else
    let num_restarts := numRestarts b.data b.size
    if num_restarts = 0 then .empty .ok else .iter (BlockIter.new b.data b.restart_offset num_restarts)

/-- The iterators of blocks. -/
def iterator (comparator : Comparator) : Iter BlockIterator Entry Slice where
  move
    | .empty status, _ => .empty status
    | .iter it, .seekToFirst => .iter it.seekToFirst
    | .iter it, .seekToLast => .iter it.seekToLast
    | .iter it, .seek target => .iter (it.seek comparator target)
    | .iter it, .next => .iter it.next
    | .iter it, .prev => .iter it.prev
  current
    | .empty _ => none
    | .iter it => it.current?
  ok
    | .empty status => status = .ok
    | .iter it => it.status = .ok

end Block

/-! ## Decoding an entry -/

theorem getVarint32Ptr_cons {b : UInt8} (h : b.toNat < 128) (rest : Slice) :
    getVarint32Ptr (b :: rest) = some (b.toUInt32, rest) := by
  have hand : b.toUInt32 &&& 128 = 0 := by
    rw [← UInt32.toNat_inj, UInt32.toNat_and, UInt8.toNat_toUInt32]
    exact (Varint.and_128_eq_zero_iff b.toNat_lt).mpr h
  unfold getVarint32Ptr
  simp only [hand, if_true]

/-- The fast path reads what the three varints give. -/
theorem decodeEntry_eq (p : Slice) : decodeEntry p =
    (decodeLengths p).filter fun d => ¬ UInt32.ofNat d.rest.length < d.non_shared + d.value_length := by
  have hshort (hp : p.length < 3) : decodeLengths p = none := by
    cases hd : decodeLengths p with
    | none => rfl
    | some d =>
      have := decodeLengths_split hd
      omega
  match p with
  | [] => rw [hshort (by simp)]; rfl
  | [_] => rw [hshort (by simp)]; rfl
  | [_, _] => rw [hshort (by simp)]; rfl
  | a :: b :: c :: rest =>
    unfold decodeEntry
    by_cases hfast : (a.toUInt32 ||| b.toUInt32 ||| c.toUInt32) < 128
    · have hor : (a.toNat ||| b.toNat) ||| c.toNat < 128 := by
        rwa [UInt32.lt_iff_toNat_lt, UInt32.toNat_or, UInt32.toNat_or] at hfast
      have hab := (Nat.left_le_or (n := a.toNat ||| b.toNat) (m := c.toNat)).trans_lt hor
      have ha := (Nat.left_le_or (n := a.toNat) (m := b.toNat)).trans_lt hab
      have hb := (Nat.right_le_or (n := a.toNat) (m := b.toNat)).trans_lt hab
      have hc := (Nat.right_le_or (n := a.toNat ||| b.toNat) (m := c.toNat)).trans_lt hor
      have hplain : decodeLengths (a :: b :: c :: rest) = some ⟨a.toUInt32, b.toUInt32, c.toUInt32, rest⟩ := by
        simp only [decodeLengths, getVarint32Ptr_cons ha, getVarint32Ptr_cons hb, getVarint32Ptr_cons hc,
          Option.bind_some, Option.map_some]
      simp only [if_pos hfast, hplain]
    · simp only [if_neg hfast]

theorem putLengths_eq (dst : Slice) (shared non_shared value_size : ℕ) :
    BlockBuilder.putLengths dst shared non_shared value_size =
      dst ++ BlockBuilder.putLengths [] shared non_shared value_size := by
  simp only [BlockBuilder.putLengths, putVarint32, List.nil_append, List.append_assoc]

theorem decodeLengths_put (shared non_shared value_size : ℕ) (rest : Slice) :
    decodeLengths (BlockBuilder.putLengths [] shared non_shared value_size ++ rest) =
      some ⟨UInt32.ofNat shared, UInt32.ofNat non_shared, UInt32.ofNat value_size, rest⟩ := by
  have hput (v : UInt32) (r : Slice) : getVarint32Ptr (encodeVarint32 v ++ r) = some (v, r) := getVarint32_put v r
  simp only [decodeLengths, BlockBuilder.putLengths, putVarint32, List.nil_append, List.append_assoc, hput,
    Option.bind_some, Option.map_some]

/-- An entry whose bytes are all there. -/
theorem decodeEntry_put {shared non_shared value_size : ℕ} {rest : Slice} (hfits : Fits rest)
    (hle : non_shared + value_size ≤ rest.length) :
    decodeEntry (BlockBuilder.putLengths [] shared non_shared value_size ++ rest) =
      some ⟨UInt32.ofNat shared, UInt32.ofNat non_shared, UInt32.ofNat value_size, rest⟩ := by
  have hsum : ¬ UInt32.ofNat rest.length < UInt32.ofNat non_shared + UInt32.ofNat value_size := by
    have hlt : rest.length < 2 ^ 32 := hfits
    rw [← UInt32.ofNat_add, UInt32.lt_iff_toNat_lt, UInt32.toNat_ofNat_of_lt' hlt,
      UInt32.toNat_ofNat_of_lt' (show non_shared + value_size < UInt32.size from hle.trans_lt hlt)]
    omega
  rw [decodeEntry_eq, decodeLengths_put]
  simp only [Option.filter, hsum, not_false_eq_true, decide_true, if_true]

/-! ## What the builder writes -/

/-- An entry as it is written: the length of the part of its key that is shared, and the entry. -/
structure EntryChunk where
  shared : ℕ
  entry : Entry

namespace EntryChunk

def delta (c : EntryChunk) : Slice := c.entry.1.drop c.shared

def bytes (c : EntryChunk) : Slice :=
  BlockBuilder.putLengths [] c.shared (c.entry.1.length - c.shared) c.entry.2.length ++ c.delta ++ c.entry.2

theorem bytes_ne_nil (c : EntryChunk) : c.bytes ≠ [] := by
  intro h
  have hd := decodeLengths_put c.shared (c.entry.1.length - c.shared) c.entry.2.length []
  have hnil : BlockBuilder.putLengths [] c.shared (c.entry.1.length - c.shared) c.entry.2.length = [] := by
    rw [bytes, List.append_assoc] at h
    exact (List.append_eq_nil_iff.mp h).1
  have hlen := decodeLengths_split hd
  rw [hnil] at hlen
  simp at hlen

end EntryChunk

/-- The offset of the chunk `i`. -/
abbrev chunkOff (cs : List EntryChunk) (i : ℕ) : ℕ := Frames.off EntryChunk.bytes cs i

/-- The key that is in the iterator when the entry `i` is parsed. -/
def keyBefore (cs : List EntryChunk) : ℕ → Slice
  | 0 => []
  | i + 1 => (cs[i]?.map fun c => c.entry.1).getD []

/-- The chunks `cs` and the restart points `rs`, by their indexes, make up a block. -/
structure BlockLayout (cs : List EntryChunk) (rs : List ℕ) : Prop where
  shared : ∀ i c, cs[i]? = some c → c.shared ≤ (keyBefore cs i).length ∧
    (keyBefore cs i).take c.shared ++ c.delta = c.entry.1
  first : rs[0]? = some 0
  restart : ∀ k r, rs[k + 1]? = some r → r < cs.length
  zero : ∀ r ∈ rs, ∀ c, cs[r]? = some c → c.shared = 0

/-- The bytes of a block. -/
def blockBytes (cs : List EntryChunk) (rs : List ℕ) : Slice :=
  cs.flatMap EntryChunk.bytes ++ ((rs.map fun r => UInt32.ofNat (chunkOff cs r)).flatMap encodeFixed32 ++
    encodeFixed32 (UInt32.ofNat rs.length))

theorem keyBefore_append {cs : List EntryChunk} {i : ℕ} (h : i ≤ cs.length) (more : List EntryChunk) :
    keyBefore (cs ++ more) i = keyBefore cs i := by
  cases i with
  | zero => rfl
  | succ i => rw [keyBefore, keyBefore, List.getElem?_append_left h]

theorem take_sharedLength : ∀ a b : Slice, sharedLength a b ≤ a.length ∧
    a.take (sharedLength a b) = b.take (sharedLength a b)
  | a :: as, b :: bs => by
    obtain ⟨ih1, ih2⟩ := take_sharedLength as bs
    unfold sharedLength
    split_ifs with h
    · subst h
      exact ⟨Nat.succ_le_succ ih1, by rw [List.take_succ_cons, List.take_succ_cons, ih2]⟩
    · exact ⟨Nat.zero_le _, rfl⟩
  | [], b => by cases b <;> exact ⟨le_rfl, rfl⟩
  | a :: as, [] => ⟨Nat.zero_le _, rfl⟩

/-- A chunk behind the others, with a restart point or without one. -/
theorem BlockLayout.append {cs : List EntryChunk} {rs ks : List ℕ} {c : EntryChunk} (h : BlockLayout cs rs)
    (hshared : c.shared ≤ (keyBefore cs cs.length).length)
    (hkey : (keyBefore cs cs.length).take c.shared ++ c.delta = c.entry.1)
    (hks : ks = [] ∨ ks = [cs.length] ∧ c.shared = 0) : BlockLayout (cs ++ [c]) (rs ++ ks) where
  shared := by
    intro i d hd
    rcases lt_trichotomy i cs.length with hi | rfl | hi
    · rw [List.getElem?_append_left hi] at hd
      rw [keyBefore_append hi.le]
      exact h.shared i d hd
    · rw [List.getElem?_concat_length] at hd
      obtain rfl := Option.some.inj hd
      rw [keyBefore_append le_rfl]
      exact ⟨hshared, hkey⟩
    · rw [List.getElem?_eq_none (by rw [List.length_append, List.length_singleton]; omega)] at hd
      cases hd
  first := by
    rw [List.getElem?_append_left (List.getElem?_eq_some_iff.mp h.first).1]
    exact h.first
  restart := by
    intro k r hr
    rw [List.length_append, List.length_singleton]
    rcases lt_or_ge (k + 1) rs.length with hk | hk
    · rw [List.getElem?_append_left hk] at hr
      exact Nat.lt_succ_of_lt (h.restart k r hr)
    · rw [List.getElem?_append_right hk] at hr
      rcases hks with rfl | ⟨rfl, -⟩
      · simp at hr
      · rw [List.mem_singleton.mp (List.mem_of_getElem? hr)]
        exact Nat.lt_succ_self _
  zero := by
    intro r hr d hd
    rcases List.mem_append.mp hr with hr | hr
    · rcases lt_trichotomy r cs.length with hi | rfl | hi
      · rw [List.getElem?_append_left hi] at hd
        exact h.zero r hr d hd
      · -- only the first restart point can lie at the end
        obtain ⟨k, hk⟩ := List.mem_iff_getElem?.mp hr
        cases k with
        | zero =>
          have hnil : cs.length = 0 := Option.some.inj (hk.symm.trans h.first)
          rw [List.getElem?_concat_length] at hd
          obtain rfl := Option.some.inj hd
          rw [hnil] at hshared
          exact Nat.le_zero.mp hshared
        | succ k => exact absurd (h.restart k _ hk) (lt_irrefl _)
      · rw [List.getElem?_eq_none (by rw [List.length_append, List.length_singleton]; omega)] at hd
        cases hd
    · rcases hks with rfl | ⟨rfl, hzero⟩
      · cases hr
      · obtain rfl := List.mem_singleton.mp hr
        rw [List.getElem?_concat_length] at hd
        obtain rfl := Option.some.inj hd
        exact hzero

namespace BlockBuilder

/-- The state of the builder after these chunks. -/
structure Wrote (b : BlockBuilder) (cs : List EntryChunk) (rs : List ℕ) : Prop where
  layout : BlockLayout cs rs
  buffer : b.buffer = cs.flatMap EntryChunk.bytes
  restarts : b.restarts = rs.map fun r => UInt32.ofNat (chunkOff cs r)
  last_key : b.last_key = keyBefore cs cs.length

variable {b : BlockBuilder} {cs : List EntryChunk} {rs : List ℕ}

theorem wrote_new : new.Wrote [] [0] where
  layout := {
    shared := fun i c h => by simp at h
    first := rfl
    restart := fun k r h => by simp at h
    zero := fun r _ c h => by simp at h }
  buffer := rfl
  restarts := rfl
  last_key := rfl

theorem Wrote.add (h : b.Wrote cs rs) (interval : ℕ) (key value : Slice) :
    ∃ c rs', c.entry = (key, value) ∧ (b.add interval key value).Wrote (cs ++ [c]) rs' := by
  obtain ⟨ks, hks⟩ : ∃ ks, ks = if b.counter < interval then [] else [cs.length] := ⟨_, rfl⟩
  obtain ⟨c, hc⟩ : ∃ c : EntryChunk, c =
    ⟨if b.counter < interval then sharedLength b.last_key key else 0, (key, value)⟩ := ⟨_, rfl⟩
  have hshare : c.shared ≤ b.last_key.length ∧ b.last_key.take c.shared ++ c.delta = key := by
    rw [hc]
    show _ ∧ _ ++ key.drop _ = key
    simp only
    split_ifs
    · obtain ⟨hle, htake⟩ := take_sharedLength b.last_key key
      exact ⟨hle, by rw [htake, List.take_append_drop]⟩
    · exact ⟨Nat.zero_le _, rfl⟩
  have hkey : keyBefore (cs ++ [c]) (cs ++ [c]).length = key := by
    rw [List.length_append, List.length_singleton, keyBefore, List.getElem?_concat_length, hc]
    rfl
  have hoff (r : ℕ) (hr : r ∈ rs) : chunkOff (cs ++ [c]) r = chunkOff cs r := by
    obtain ⟨k, hk⟩ := List.mem_iff_getElem?.mp hr
    cases k with
    | zero =>
      obtain rfl := Option.some.inj (hk.symm.trans h.layout.first)
      rw [chunkOff, chunkOff, Frames.off_zero, Frames.off_zero]
    | succ k => exact Frames.off_append (h.layout.restart k r hk).le [c]
  refine ⟨c, rs ++ ks, by rw [hc], ?_, ?_, ?_, ?_⟩
  · refine h.layout.append (h.last_key ▸ hshare.1) ?_ ?_
    · rw [← h.last_key, hshare.2, hc]
    · rw [hks, hc]
      split_ifs with hlt
      · exact Or.inl rfl
      · exact Or.inr ⟨rfl, rfl⟩
  · show putLengths b.buffer _ _ _ ++ _ ++ _ = _
    rw [List.flatMap_append, List.flatMap_singleton, ← h.buffer, putLengths_eq, hc]
    simp only [EntryChunk.bytes, EntryChunk.delta, List.append_assoc]
  · have hmap : (rs.map fun r => UInt32.ofNat (chunkOff (cs ++ [c]) r)) = b.restarts := by
      rw [h.restarts]
      exact List.map_congr_left fun r hr => by rw [hoff r hr]
    rw [List.map_append, hmap, hks]
    show (if b.counter < interval then b else _ : BlockBuilder).restarts = _
    split_ifs with hlt
    · rw [List.map_nil, List.append_nil]
    · have hend : chunkOff (cs ++ [c]) cs.length = b.buffer.length := by
        rw [chunkOff, Frames.off_append le_rfl, Frames.off_length, h.buffer]
      rw [List.map_singleton, hend]
  · rw [hkey]
    show b.last_key.take _ ++ key.drop _ = key
    have h2 := hshare.2
    rw [hc] at h2
    exact h2

theorem wrote_foldl (interval : ℕ) : ∀ (entries : List Entry) {b : BlockBuilder} {cs : List EntryChunk}
    {rs : List ℕ}, b.Wrote cs rs → ∃ ds rs', ds.map EntryChunk.entry = entries ∧
      (entries.foldl (fun b e => b.add interval e.1 e.2) b).Wrote (cs ++ ds) rs'
  | [], _, cs, rs, h => ⟨[], rs, rfl, by rwa [List.append_nil]⟩
  | e :: entries, _, cs, _, h => by
    obtain ⟨c, rs', hc, h'⟩ := h.add interval e.1 e.2
    obtain ⟨ds, rs'', hds, h''⟩ := wrote_foldl interval entries h'
    refine ⟨c :: ds, rs'', by rw [List.map_cons, hc, hds], ?_⟩
    rwa [List.append_assoc, List.singleton_append] at h''

theorem Wrote.finish (h : b.Wrote cs rs) : b.finish = blockBytes cs rs := by
  rw [BlockBuilder.finish, foldl_putFixed32, putFixed32, h.buffer, h.restarts, List.length_map, List.append_assoc]
  rfl

theorem length_putLengths_le (dst : Slice) (shared non_shared value_size : ℕ) :
    (putLengths dst shared non_shared value_size).length ≤ dst.length + 15 := by
  have hlen (v : UInt32) : (encodeVarint32 v).length ≤ 5 := by
    rw [encodeVarint32_eq]
    exact Varint.length_encode_le 5 v.toNat
  have h1 := hlen (UInt32.ofNat shared)
  have h2 := hlen (UInt32.ofNat non_shared)
  have h3 := hlen (UInt32.ofNat value_size)
  simp only [putLengths, putVarint32, List.length_append]
  omega

theorem length_add_le (interval : ℕ) (b : BlockBuilder) (key value : Slice) :
    (b.add interval key value).buffer.length + (b.add interval key value).restarts.length * 4 ≤
      b.buffer.length + b.restarts.length * 4 + (key.length + value.length + 19) := by
  have hrestarts : (b.add interval key value).restarts.length ≤ b.restarts.length + 1 := by
    show (if b.counter < interval then b else _ : BlockBuilder).restarts.length ≤ _
    split_ifs
    · exact Nat.le_succ _
    · simp
  obtain ⟨shared, hshared⟩ : ∃ shared, shared = if b.counter < interval then sharedLength b.last_key key else 0 :=
    ⟨_, rfl⟩
  have hbuffer : (b.add interval key value).buffer =
      putLengths b.buffer shared (key.length - shared) value.length ++ key.drop shared ++ value := by
    rw [hshared]
    rfl
  have hput := length_putLengths_le b.buffer shared (key.length - shared) value.length
  rw [hbuffer, List.length_append, List.length_append, List.length_drop]
  omega

/-- A bound on the size of a block. -/
theorem length_build_le (interval : ℕ) (entries : List Entry) :
    (build interval entries).length ≤ (entries.map fun e => e.1.length + e.2.length + 19).sum + 8 := by
  have hfold : ∀ (entries : List Entry) (b : BlockBuilder),
      (entries.foldl (fun b e => b.add interval e.1 e.2) b).buffer.length +
        (entries.foldl (fun b e => b.add interval e.1 e.2) b).restarts.length * 4 ≤
      b.buffer.length + b.restarts.length * 4 + (entries.map fun e => e.1.length + e.2.length + 19).sum := by
    intro entries
    induction entries with
    | nil => exact fun b => le_rfl
    | cons e entries ih =>
      intro b
      have hrest := ih (b.add interval e.1 e.2)
      have hadd := length_add_le interval b e.1 e.2
      rw [List.foldl_cons, List.map_cons, List.sum_cons]
      omega
  have hnew := hfold entries new
  have hwords (vs : List UInt32) : (vs.flatMap encodeFixed32).length = vs.length * 4 := by
    rw [← Frames.off_length, Frames.off_eq_mul length_encodeFixed32 le_rfl]
  rw [build, finish, foldl_putFixed32, putFixed32, List.length_append, List.length_append, hwords,
    length_encodeFixed32]
  have hfresh : new.buffer.length + new.restarts.length * 4 = 4 := rfl
  omega

/-- A block is the bytes of its entries' chunks and of its restart points. -/
theorem build_eq (interval : ℕ) (entries : List Entry) : ∃ cs rs, cs.map EntryChunk.entry = entries ∧
    BlockLayout cs rs ∧ build interval entries = blockBytes cs rs := by
  obtain ⟨cs, rs, hcs, h⟩ := wrote_foldl interval entries wrote_new
  exact ⟨cs, rs, hcs, h.layout, h.finish⟩

end BlockBuilder

/-! ## What the iterator reads -/

section Reading

variable {cs : List EntryChunk} {rs : List ℕ} {c : EntryChunk} {i k r : ℕ}

/-- A key is no longer than the block up to the end of its entry. -/
theorem BlockLayout.length_key (h : BlockLayout cs rs) : ∀ {i : ℕ} {c : EntryChunk}, cs[i]? = some c →
    c.shared + c.delta.length = c.entry.1.length ∧ c.entry.1.length ≤ chunkOff cs (i + 1)
  | i, c, hc => by
    obtain ⟨hle, hkey⟩ := h.shared i c hc
    have hsum : c.shared + c.delta.length = c.entry.1.length := by
      rw [← hkey, List.length_append, List.length_take, Nat.min_eq_left hle]
    have hbytes : c.delta.length ≤ c.bytes.length := by
      simp only [EntryChunk.bytes, List.length_append]
      omega
    have hbefore : (keyBefore cs i).length ≤ chunkOff cs i := by
      cases i with
      | zero => exact Nat.zero_le _
      | succ j =>
        have hj := (List.getElem?_eq_some_iff.mp hc).1
        have hget := List.getElem?_eq_getElem (Nat.lt_of_succ_lt hj)
        rw [keyBefore, hget]
        exact (h.length_key hget).2
    refine ⟨hsum, ?_⟩
    rw [chunkOff, Frames.off_succ hc]
    show _ ≤ chunkOff cs i + _
    omega

namespace BlockIter

variable {it it' : BlockIter}

/-- The iterator is one over this block. -/
structure Reads (it : BlockIter) (cs : List EntryChunk) (rs : List ℕ) : Prop where
  data : it.data = blockBytes cs rs
  restarts : it.restarts = chunkOff cs cs.length
  num_restarts : it.num_restarts = rs.length
  ok : it.status = .ok

/-- The next entry to be parsed is the entry `i`. -/
structure Ready (it : BlockIter) (cs : List EntryChunk) (rs : List ℕ) (i : ℕ) : Prop where
  reads : it.Reads cs rs
  le : i ≤ cs.length
  offset : it.nextEntryOffset = chunkOff cs i
  index : it.restart_index < rs.length
  key : ∀ c, cs[i]? = some c → c.shared ≤ it.key.length ∧ it.key.take c.shared ++ c.delta = c.entry.1

/-- The iterator stands at the entry `i`, or behind the last one. -/
structure StandsAt (it : BlockIter) (cs : List EntryChunk) (rs : List ℕ) (i : ℕ) : Prop where
  reads : it.Reads cs rs
  le : i ≤ cs.length
  current : it.current = chunkOff cs i
  entry : ∀ c, cs[i]? = some c → it.key = c.entry.1 ∧ (it.data.drop it.value.1).take it.value.2 = c.entry.2 ∧
    it.nextEntryOffset = chunkOff cs (i + 1) ∧ it.restart_index < rs.length

theorem Reads.bytesFrom (h : it.Reads cs rs) (offset : ℕ) :
    it.bytesFrom offset = (cs.flatMap EntryChunk.bytes).drop offset := by
  rw [BlockIter.bytesFrom, h.data, h.restarts, blockBytes, chunkOff, Frames.off_length, List.take_left]

theorem chunkOff_lt (hfits : Fits (blockBytes cs rs)) (i : ℕ) : chunkOff cs i < 2 ^ 32 := by
  have hle := Frames.off_le EntryChunk.bytes cs i
  have hlt : (blockBytes cs rs).length < 2 ^ 32 := hfits
  rw [blockBytes, List.length_append] at hlt
  show Frames.off EntryChunk.bytes cs i < _
  omega

theorem Reads.getRestartPoint (h : it.Reads cs rs) (hfits : Fits (blockBytes cs rs)) (hr : rs[k]? = some r) :
    it.getRestartPoint k = chunkOff cs r := by
  obtain ⟨vs, hvs⟩ : ∃ vs, vs = rs.map fun r => UInt32.ofNat (chunkOff cs r) := ⟨_, rfl⟩
  have hv : vs[k]? = some (UInt32.ofNat (chunkOff cs r)) := by rw [hvs, List.getElem?_map, hr]; rfl
  have hk : k ≤ vs.length := (List.getElem?_eq_some_iff.mp hv).1.le
  have hoff : Frames.off encodeFixed32 vs k = k * 4 := Frames.off_eq_mul length_encodeFixed32 hk
  have hle := Frames.off_le encodeFixed32 vs k
  have hdrop : it.data.drop (it.restarts + k * 4) = encodeFixed32 (UInt32.ofNat (chunkOff cs r)) ++
      ((vs.drop (k + 1)).flatMap encodeFixed32 ++ encodeFixed32 (UInt32.ofNat rs.length)) := by
    rw [h.data, h.restarts, blockBytes, ← hvs, chunkOff, Frames.off_length, ← List.drop_drop, List.drop_left,
      ← hoff, List.drop_append_of_le_length hle, Frames.drop_off hv, List.append_assoc]
  rw [BlockIter.getRestartPoint, hdrop, decodeFixed32_encodeFixed32]
  exact UInt32.toNat_ofNat_of_lt' (chunkOff_lt hfits r)

/-- What `DecodeEntry` finds at the entry `i`, and where its key and its value lie. -/
theorem Reads.decodeEntry (h : it.Reads cs rs) (hl : BlockLayout cs rs) (hfits : Fits (blockBytes cs rs))
    (hc : cs[i]? = some c) : ∃ d, decodeEntry (it.bytesFrom (chunkOff cs i)) = some d ∧
      d.shared.toNat = c.shared ∧ d.rest.take d.non_shared.toNat = c.delta ∧
      d.value_length.toNat = c.entry.2.length ∧
      it.restarts - d.rest.length + d.non_shared.toNat + d.value_length.toNat = chunkOff cs (i + 1) ∧
      (it.data.drop (it.restarts - d.rest.length + d.non_shared.toNat)).take d.value_length.toNat = c.entry.2 := by
  obtain ⟨hsum, hkey⟩ := hl.length_key hc
  have hnext := chunkOff_lt hfits (i + 1)
  have hsucc : chunkOff cs (i + 1) = chunkOff cs i + c.bytes.length := Frames.off_succ hc
  obtain ⟨post, hpost⟩ : ∃ post, post = (cs.drop (i + 1)).flatMap EntryChunk.bytes := ⟨_, rfl⟩
  obtain ⟨front, hfront⟩ : ∃ front,
    front = BlockBuilder.putLengths [] c.shared (c.entry.1.length - c.shared) c.entry.2.length := ⟨_, rfl⟩
  have hbytes : c.bytes = front ++ c.delta ++ c.entry.2 := by rw [hfront]; rfl
  have hlen : c.bytes.length = front.length + c.delta.length + c.entry.2.length := by
    rw [hbytes, List.length_append, List.length_append]
  have hdrop : (cs.flatMap EntryChunk.bytes).drop (chunkOff cs i) = c.bytes ++ post := by
    rw [hpost]
    exact Frames.drop_off hc
  have htotal : it.restarts = chunkOff cs (i + 1) + post.length := by
    have hlt := congrArg List.length hdrop
    have hle := Frames.off_le EntryChunk.bytes cs i
    rw [List.length_drop, List.length_append] at hlt
    rw [h.restarts, chunkOff, Frames.off_length, hsucc]
    show _ = Frames.off EntryChunk.bytes cs i + _ + _
    change _ - Frames.off EntryChunk.bytes cs i = _ at hlt
    omega
  have htake : (c.delta ++ c.entry.2 ++ post).length < 2 ^ 32 := by
    have hend := chunkOff_lt hfits cs.length
    rw [← h.restarts, htotal, hsucc] at hend
    rw [List.length_append, List.length_append]
    omega
  refine ⟨⟨UInt32.ofNat c.shared, UInt32.ofNat (c.entry.1.length - c.shared), UInt32.ofNat c.entry.2.length,
    c.delta ++ c.entry.2 ++ post⟩, ?_, ?_, ?_, ?_, ?_, ?_⟩
  · rw [h.bytesFrom, hdrop, hbytes, hfront, List.append_assoc, List.append_assoc, ← List.append_assoc c.delta]
    refine decodeEntry_put htake ?_
    rw [List.length_append, List.length_append]
    omega
  all_goals
    have hnat {n : ℕ} (hn : n < 2 ^ 32) : (UInt32.ofNat n).toNat = n := UInt32.toNat_ofNat_of_lt' hn
    simp only [hnat (show c.shared < 2 ^ 32 by omega), hnat (show c.entry.1.length - c.shared < 2 ^ 32 by omega),
      hnat (show c.entry.2.length < 2 ^ 32 by omega)]
  · rw [List.append_assoc, List.take_left' (by omega)]
  · rw [List.length_append, List.length_append]
    omega
  · have hvalue : it.restarts - (c.delta ++ c.entry.2 ++ post).length + (c.entry.1.length - c.shared) =
        chunkOff cs i + (front.length + c.delta.length) := by
      rw [List.length_append, List.length_append]
      omega
    have hregion : it.data.drop (chunkOff cs i) = c.bytes ++ (post ++
        it.data.drop (cs.flatMap EntryChunk.bytes).length) := by
      rw [h.data, blockBytes, List.drop_left, List.drop_append_of_le_length (Frames.off_le _ _ _), hdrop,
        List.append_assoc]
    rw [hvalue, ← List.drop_drop, hregion, hbytes, List.append_assoc (front ++ c.delta),
      List.drop_left' (List.length_append), List.take_left]

theorem Reads.markInvalid (h : it.Reads cs rs) : it.markInvalid.StandsAt cs rs cs.length where
  reads := ⟨h.data, h.restarts, h.num_restarts, h.ok⟩
  le := le_rfl
  current := h.restarts
  entry := fun c hc => by simp at hc

theorem skipRestarts_lt (it : BlockIter) (current index : ℕ) (h : index < it.num_restarts) :
    it.skipRestarts current index < it.num_restarts := by
  fun_induction skipRestarts it current index with
  | case1 index hskip ih => exact ih hskip.1
  | case2 index _ => exact h

/-! ## Parsing -/

theorem Ready.parse (h : it.Ready cs rs i) (hl : BlockLayout cs rs) (hfits : Fits (blockBytes cs rs))
    (hc : cs[i]? = some c) : ∃ it', it.parseNextKey = (it', true) ∧ it'.StandsAt cs rs i := by
  obtain ⟨d, hd, hshared, hdelta, -, hnext, hvalue⟩ := h.reads.decodeEntry hl hfits hc
  obtain ⟨hle, hkey⟩ := h.key c hc
  have hlt : chunkOff cs i < it.restarts := by
    rw [h.reads.restarts]
    exact Frames.off_lt EntryChunk.bytes_ne_nil (List.getElem?_eq_some_iff.mp hc).1 le_rfl
  refine ⟨it.atEntry (chunkOff cs i) d, ?_, ?_⟩
  · unfold parseNextKey
    simp only [h.offset, if_neg (not_le.mpr hlt), hd, hshared, if_neg (not_lt.mpr hle)]
  · exact {
      reads := ⟨h.reads.data, h.reads.restarts, h.reads.num_restarts, h.reads.ok⟩
      le := h.le
      current := rfl
      entry := by
        intro c' hc'
        obtain rfl := Option.some.inj (hc'.symm.trans hc)
        refine ⟨by rw [atEntry, hshared, hdelta, hkey], hvalue, hnext, ?_⟩
        rw [← h.reads.num_restarts]
        exact skipRestarts_lt it _ _ (h.reads.num_restarts ▸ h.index) }

theorem Ready.parse_end (h : it.Ready cs rs cs.length) : it.parseNextKey = (it.markInvalid, false) := by
  have hle : it.restarts ≤ it.nextEntryOffset := by rw [h.offset, h.reads.restarts]
  unfold parseNextKey
  simp only [if_pos hle]

/-- Whatever there is to be parsed, the iterator stands there afterwards. -/
theorem Ready.stands (h : it.Ready cs rs i) (hl : BlockLayout cs rs) (hfits : Fits (blockBytes cs rs)) :
    it.parseNextKey.1.StandsAt cs rs i := by
  rcases h.le.lt_or_eq with hi | rfl
  · obtain ⟨it', hparse, hstands⟩ := h.parse hl hfits (List.getElem?_eq_getElem hi)
    rw [hparse]
    exact hstands
  · rw [h.parse_end]
    exact h.reads.markInvalid

theorem StandsAt.ready (h : it.StandsAt cs rs i) (hl : BlockLayout cs rs) (hi : i < cs.length) :
    it.Ready cs rs (i + 1) := by
  obtain ⟨hkey, -, hnext, hindex⟩ := h.entry _ (List.getElem?_eq_getElem hi)
  refine ⟨h.reads, hi, hnext, hindex, fun c hc => ?_⟩
  have hshared := hl.shared (i + 1) c hc
  rw [keyBefore, List.getElem?_eq_getElem hi] at hshared
  rw [hkey]
  exact hshared

theorem Reads.ready (h : it.Reads cs rs) (hl : BlockLayout cs rs) (hfits : Fits (blockBytes cs rs))
    (hr : rs[k]? = some r) : (it.seekToRestartPoint k).Ready cs rs r where
  reads := ⟨h.data, h.restarts, h.num_restarts, h.ok⟩
  le := by
    cases k with
    | zero =>
      obtain rfl := Option.some.inj (hl.first.symm.trans hr)
      exact Nat.zero_le _
    | succ k => exact (hl.restart k r hr).le
  offset := h.getRestartPoint hfits hr
  index := (List.getElem?_eq_some_iff.mp hr).1
  key := by
    intro c hc
    have hzero := hl.zero r (List.mem_of_getElem? hr) c hc
    obtain ⟨-, hkey⟩ := hl.shared r c hc
    rw [hzero, List.take_zero] at hkey
    exact ⟨by rw [hzero]; exact Nat.zero_le _, by rw [hzero, List.take_zero]; exact hkey⟩

/-! ## Walking through the entries -/

theorem parseUntil_of_true {bound : ℕ} (h : it.parseNextKey = (it', true)) :
    it.parseUntil bound = if it'.nextEntryOffset < bound then it'.parseUntil bound else it' := by
  rw [parseUntil]
  split
  · rename_i it'' heq
    obtain ⟨rfl, -⟩ := Prod.mk.inj (heq.symm.trans h)
    rfl
  · rename_i heq
    cases heq.symm.trans h

/-- Up to the entry before the bound. -/
theorem Ready.parseUntil (hl : BlockLayout cs rs) (hfits : Fits (blockBytes cs rs)) {j : ℕ} (hj : j < cs.length) :
    ∀ {m i : ℕ} {it : BlockIter}, j - i = m → i ≤ j → it.Ready cs rs i →
      (it.parseUntil (chunkOff cs (j + 1))).StandsAt cs rs j
  | m, i, it, hm, hij, h => by
    obtain ⟨it', hparse, hstands⟩ := h.parse hl hfits (List.getElem?_eq_getElem (hij.trans_lt hj))
    have hnext := (hstands.entry _ (List.getElem?_eq_getElem (hij.trans_lt hj))).2.2.1
    have hiff : chunkOff cs (i + 1) < chunkOff cs (j + 1) ↔ i + 1 < j + 1 :=
      Frames.off_lt_iff EntryChunk.bytes_ne_nil (by omega) (by omega)
    rw [parseUntil_of_true hparse, hnext]
    split_ifs with hlt
    · rw [hiff] at hlt
      have hready := hstands.ready hl (hij.trans_lt hj)
      cases m with
      | zero => omega
      | succ m =>
        have hrest : j - (i + 1) = m := by omega
        exact Ready.parseUntil hl hfits hj hrest (by omega) hready
    · rw [hiff] at hlt
      obtain rfl : i = j := by omega
      exact hstands

theorem Reads.restartBefore (h : it.Reads cs rs) (hl : BlockLayout cs rs) (hfits : Fits (blockBytes cs rs))
    (hi : i ≤ cs.length) : ∀ {index : ℕ}, index < rs.length →
      (it.restartBefore (chunkOff cs i) index = none ∧ i = 0) ∨
      ∃ k r, it.restartBefore (chunkOff cs i) index = some k ∧ rs[k]? = some r ∧ r < i
  | 0, _ => by
    have hiff : chunkOff cs 0 < chunkOff cs i ↔ 0 < i :=
      Frames.off_lt_iff EntryChunk.bytes_ne_nil (Nat.zero_le _) hi
    rw [BlockIter.restartBefore, h.getRestartPoint hfits hl.first]
    split_ifs with hle
    · rw [← not_lt, hiff] at hle
      exact Or.inl ⟨rfl, by omega⟩
    · rw [not_le, hiff] at hle
      exact Or.inr ⟨0, 0, rfl, hl.first, hle⟩
  | index + 1, hindex => by
    have hr := List.getElem?_eq_getElem hindex
    have hiff : chunkOff cs rs[index + 1] < chunkOff cs i ↔ rs[index + 1] < i :=
      Frames.off_lt_iff EntryChunk.bytes_ne_nil (hl.restart index _ hr).le hi
    rw [BlockIter.restartBefore, h.getRestartPoint hfits hr]
    split_ifs with hle
    · exact h.restartBefore hl hfits hi (Nat.lt_of_succ_lt hindex)
    · rw [not_le, hiff] at hle
      exact Or.inr ⟨index + 1, _, rfl, hr, hle⟩

theorem StandsAt.prev (h : it.StandsAt cs rs i) (hl : BlockLayout cs rs) (hfits : Fits (blockBytes cs rs))
    (hi : i < cs.length) : it.prev.StandsAt cs rs (if i = 0 then cs.length else i - 1) := by
  have hindex := (h.entry _ (List.getElem?_eq_getElem hi)).2.2.2
  unfold BlockIter.prev
  rw [h.current]
  rcases h.reads.restartBefore hl hfits h.le hindex with ⟨hnone, rfl⟩ | ⟨k, r, hsome, hr, hlt⟩
  · rw [hnone, if_pos rfl]
    exact h.reads.markInvalid
  · obtain ⟨j, rfl⟩ : ∃ j, i = j + 1 := ⟨i - 1, by omega⟩
    rw [hsome, if_neg (Nat.succ_ne_zero j), Nat.add_sub_cancel]
    exact Ready.parseUntil hl hfits (by omega) rfl (by omega) (h.reads.ready hl hfits hr)

theorem Reads.seekToFirst (h : it.Reads cs rs) (hl : BlockLayout cs rs) (hfits : Fits (blockBytes cs rs)) :
    it.seekToFirst.StandsAt cs rs 0 :=
  (h.ready hl hfits hl.first).stands hl hfits

theorem Reads.seekToLast (h : it.Reads cs rs) (hl : BlockLayout cs rs) (hfits : Fits (blockBytes cs rs)) :
    it.seekToLast.StandsAt cs rs (cs.length - 1) := by
  have hpos : 0 < rs.length := (List.getElem?_eq_some_iff.mp hl.first).1
  obtain ⟨r, hr⟩ : ∃ r, rs[rs.length - 1]? = some r := ⟨_, List.getElem?_eq_getElem (by omega)⟩
  have hready := h.ready hl hfits hr
  unfold BlockIter.seekToLast
  rw [h.num_restarts, h.restarts]
  rcases Nat.eq_zero_or_pos cs.length with hzero | hcs
  · -- an empty block
    have hle := hready.le
    obtain rfl : r = cs.length := by omega
    rw [BlockIter.parseUntil]
    split
    · rename_i heq
      cases heq.symm.trans hready.parse_end
    · rename_i heq
      obtain ⟨rfl, -⟩ := Prod.mk.inj (heq.symm.trans hready.parse_end)
      rw [show cs.length - 1 = cs.length by omega]
      exact hready.reads.markInvalid
  · have hlt : r < cs.length := by
      rcases hk : rs.length - 1 with _ | k
      · rw [hk] at hr
        obtain rfl := Option.some.inj (hl.first.symm.trans hr)
        exact hcs
      · rw [hk] at hr
        exact hl.restart k r hr
    obtain ⟨j, hj⟩ : ∃ j, cs.length = j + 1 := ⟨cs.length - 1, by omega⟩
    rw [hj, Nat.add_sub_cancel]
    exact Ready.parseUntil hl hfits (by omega) rfl (by omega) hready

/-! ## Searching -/

section Seek

variable {comparator : Comparator} {target : Slice}

theorem parseTo_of_true (h : it.parseNextKey = (it', true)) : it.parseTo comparator target =
    if comparator.compare it'.key target ≠ .lt then it' else it'.parseTo comparator target := by
  rw [parseTo]
  split
  · rename_i it'' heq
    obtain ⟨rfl, -⟩ := Prod.mk.inj (heq.symm.trans h)
    rfl
  · rename_i heq
    cases heq.symm.trans h

theorem parseTo_of_false (h : it.parseNextKey = (it', false)) : it.parseTo comparator target = it' := by
  rw [parseTo]
  split
  · rename_i heq
    cases heq.symm.trans h
  · rename_i it'' heq
    obtain ⟨rfl, -⟩ := Prod.mk.inj (heq.symm.trans h)
    rfl

variable {p : ℕ} (hl : BlockLayout cs rs) (hfits : Fits (blockBytes cs rs))
  (hbefore : ∀ j c, cs[j]? = some c → (comparator.compare c.entry.1 target = .lt ↔ j < p))

include hl hfits hbefore

/-- The linear search ends at the first entry that is not below the target. -/
theorem Ready.parseTo (hp : p ≤ cs.length) : ∀ {m i : ℕ} {it : BlockIter}, p - i = m → i ≤ p →
    it.Ready cs rs i → (it.parseTo comparator target).StandsAt cs rs p
  | m, i, it, hm, hip, h => by
    rcases h.le.lt_or_eq with hi | rfl
    · have hget := List.getElem?_eq_getElem hi
      obtain ⟨it', hparse, hstands⟩ := h.parse hl hfits hget
      have hkey := (hstands.entry _ hget).1
      rw [parseTo_of_true hparse, hkey]
      split_ifs with hlt
      · have hnot := mt (hbefore i _ hget).mpr hlt
        obtain rfl : i = p := by omega
        exact hstands
      · rw [not_not] at hlt
        have hip' := (hbefore i _ hget).mp hlt
        cases m with
        | zero => omega
        | succ m =>
          have hrest : p - (i + 1) = m := by omega
          exact Ready.parseTo hp hrest (by omega) (hstands.ready hl hi)
    · obtain rfl : cs.length = p := by omega
      rw [parseTo_of_false h.parse_end]
      exact h.reads.markInvalid

/-- The bisection ends at a restart point from which the target is ahead. -/
theorem Reads.searchRestarts (h : it.Reads cs rs) (left right : ℕ) (hleft : ∀ r, rs[left]? = some r → r ≤ p)
    (hlen : left < rs.length) (hright : right < rs.length) :
    ∃ k r, it.searchRestarts comparator target left right = some k ∧ rs[k]? = some r ∧ r ≤ p := by
  rw [BlockIter.searchRestarts]
  by_cases hlt : left < right
  · rw [if_pos hlt]
    obtain ⟨mid, hmid⟩ : ∃ mid, mid + 1 = (left + right + 1) / 2 := ⟨(left + right + 1) / 2 - 1, by omega⟩
    obtain ⟨r, hr⟩ : ∃ r, rs[mid + 1]? = some r := ⟨_, List.getElem?_eq_getElem (by omega)⟩
    obtain ⟨c, hget⟩ : ∃ c, cs[r]? = some c := ⟨_, List.getElem?_eq_getElem (hl.restart mid r hr)⟩
    have hzero := hl.zero r (List.mem_of_getElem? hr) c hget
    obtain ⟨d, hd, hshared, hdelta, -⟩ := h.decodeEntry hl hfits hget
    have hshared' : d.shared = 0 := by
      rw [← UInt32.toNat_inj, hshared, hzero]
      rfl
    have hkey : c.delta = c.entry.1 := by rw [EntryChunk.delta, hzero, List.drop_zero]
    simp only [← hmid, h.getRestartPoint hfits hr, hd, hshared', hdelta, hkey, ne_eq, not_true_eq_false, if_false]
    split_ifs with hcmp
    · refine h.searchRestarts (mid + 1) right (fun r hr' => ?_) (by omega) hright
      obtain rfl := Option.some.inj (hr.symm.trans hr')
      exact ((hbefore _ _ hget).mp hcmp).le
    · exact h.searchRestarts left (mid + 1 - 1) hleft hlen (by omega)
  · rw [if_neg hlt]
    exact ⟨left, rs[left], rfl, List.getElem?_eq_getElem hlen, hleft _ (List.getElem?_eq_getElem hlen)⟩
termination_by right - left

theorem Reads.seek (h : it.Reads cs rs) (hp : p ≤ cs.length) : (it.seek comparator target).StandsAt cs rs p := by
  have hpos : 0 < rs.length := (List.getElem?_eq_some_iff.mp hl.first).1
  have hleft (r : ℕ) (hr : rs[0]? = some r) : r ≤ p := by
    obtain rfl := Option.some.inj (hl.first.symm.trans hr)
    exact Nat.zero_le _
  obtain ⟨k, r, hk, hr, hle⟩ := h.searchRestarts hl hfits hbefore 0 (rs.length - 1) hleft hpos (by omega)
  unfold BlockIter.seek
  rw [h.num_restarts, hk]
  exact Ready.parseTo hl hfits hbefore hp rfl hle (h.ready hl hfits hr)

end Seek

/-! ## The iterator is a cursor -/

theorem StandsAt.current? (h : it.StandsAt cs rs i) : it.current? = (cs.map EntryChunk.entry)[i]? := by
  unfold BlockIter.current?
  rw [h.current, h.reads.restarts, List.getElem?_map]
  rcases h.le.lt_or_eq with hi | rfl
  · obtain ⟨hkey, hvalue, -⟩ := h.entry _ (List.getElem?_eq_getElem hi)
    rw [if_pos (Frames.off_lt EntryChunk.bytes_ne_nil hi le_rfl), List.getElem?_eq_getElem hi, hkey, hvalue]
    rfl
  · rw [if_neg (lt_irrefl _), List.getElem?_eq_none le_rfl]
    rfl

end BlockIter

namespace Block

variable {comparator : Comparator}

theorem simulates [Std.TransCmp comparator.compare] (hl : BlockLayout cs rs) (hfits : Fits (blockBytes cs rs))
    (hsorted : Sorted comparator.compare Prod.fst (cs.map EntryChunk.entry)) :
    Simulates (entryLt comparator) (cs.map EntryChunk.entry) (iterator comparator)
      fun s i => ∃ it, s = .iter it ∧ it.StandsAt cs rs i where
  le := by
    rintro _ i ⟨it, rfl, h⟩
    rw [List.length_map]
    exact h.le
  ok := by
    rintro _ i ⟨it, rfl, h⟩
    exact decide_eq_true h.reads.ok
  current := by
    rintro _ i ⟨it, rfl, h⟩
    exact h.current?
  move := by
    rintro _ i m ⟨it, rfl, h⟩ hm
    cases m with
    | seekToFirst => exact ⟨_, rfl, h.reads.seekToFirst hl hfits⟩
    | seekToLast =>
      have hlast := h.reads.seekToLast hl hfits
      rw [← List.length_map (f := EntryChunk.entry)] at hlast
      exact ⟨_, rfl, hlast⟩
    | seek target =>
      refine ⟨_, rfl, h.reads.seek hl hfits (fun j c hc => ?_) ?_⟩
      · have hinit := initial_below hsorted target
        have he : (cs.map EntryChunk.entry)[j]? = some c.entry := by rw [List.getElem?_map, hc]; rfl
        constructor
        · intro hlt
          by_contra hge
          have hfalse := getElem?_cut_le hinit (not_lt.mp hge) he
          exact of_decide_eq_false hfalse hlt
        · intro hlt
          exact of_decide_eq_true (getElem?_lt_cut (D := fun e => entryLt comparator e target) hlt he)
      · have hle := cut_le (fun e => entryLt comparator e target) (cs.map EntryChunk.entry)
        rwa [List.length_map] at hle
    | next =>
      have hi : i < (cs.map EntryChunk.entry).length := hm
      rw [List.length_map] at hi
      exact ⟨_, rfl, (h.ready hl hi).stands hl hfits⟩
    | prev =>
      have hi : i < (cs.map EntryChunk.entry).length := hm
      rw [List.length_map] at hi
      have hprev := h.prev hl hfits hi
      rw [← List.length_map (f := EntryChunk.entry)] at hprev
      exact ⟨_, rfl, hprev⟩

theorem length_blockBytes (cs : List EntryChunk) (rs : List ℕ) :
    (blockBytes cs rs).length = chunkOff cs cs.length + (rs.length * 4 + 4) := by
  have hrs : ∀ vs : List UInt32, (vs.flatMap encodeFixed32).length = vs.length * 4 := fun vs => by
    rw [← Frames.off_length, Frames.off_eq_mul length_encodeFixed32 le_rfl]
  rw [blockBytes, List.length_append, List.length_append, hrs, List.length_map, length_encodeFixed32, chunkOff,
    Frames.off_length]

theorem numRestarts_blockBytes (hfits : Fits (blockBytes cs rs)) :
    numRestarts (blockBytes cs rs) (blockBytes cs rs).length = rs.length := by
  have hlen := length_blockBytes cs rs
  have hlt : (blockBytes cs rs).length < 2 ^ 32 := hfits
  have hdrop : (blockBytes cs rs).drop ((blockBytes cs rs).length - 4) = encodeFixed32 (UInt32.ofNat rs.length) := by
    conv_lhs => arg 2; rw [blockBytes, ← List.append_assoc]
    refine List.drop_left' ?_
    rw [blockBytes, ← List.append_assoc]
    simp only [List.length_append, length_encodeFixed32, Nat.add_sub_cancel]
  have hdecode := decodeFixed32_encodeFixed32 (UInt32.ofNat rs.length) []
  rw [List.append_nil] at hdecode
  rw [numRestarts, hdrop, hdecode]
  exact UInt32.toNat_ofNat_of_lt' (show rs.length < 2 ^ 32 by omega)

theorem newIterator_new (hl : BlockLayout cs rs) (hfits : Fits (blockBytes cs rs)) :
    ∃ it, (new (blockBytes cs rs)).newIterator = .iter it ∧ it.StandsAt cs rs cs.length := by
  have hlen := length_blockBytes cs rs
  have hnum := numRestarts_blockBytes hfits
  have hpos : 0 < rs.length := (List.getElem?_eq_some_iff.mp hl.first).1
  have hnew : new (blockBytes cs rs) = ⟨blockBytes cs rs, (blockBytes cs rs).length, chunkOff cs cs.length⟩ := by
    unfold new
    simp only [hnum]
    rw [if_neg (by omega), if_neg (by omega), show (blockBytes cs rs).length - (1 + rs.length) * 4 =
      chunkOff cs cs.length by omega]
  refine ⟨BlockIter.new (blockBytes cs rs) (chunkOff cs cs.length) rs.length, ?_, ⟨rfl, rfl, rfl, rfl⟩, le_rfl, rfl, ?_⟩
  · unfold newIterator
    simp only [hnew, hnum]
    rw [if_neg (by omega), if_neg (by omega)]
  · intro c hc
    simp at hc

/-- The iterator over the bytes of a block. -/
theorem at_blockBytes [Std.TransCmp comparator.compare] (hl : BlockLayout cs rs) (hfits : Fits (blockBytes cs rs))
    (hsorted : Sorted comparator.compare Prod.fst (cs.map EntryChunk.entry)) :
    At (entryLt comparator) (cs.map EntryChunk.entry) (iterator comparator) (new (blockBytes cs rs)).newIterator
      (cs.map EntryChunk.entry).length := by
  obtain ⟨it, hit, hstands⟩ := newIterator_new hl hfits
  rw [List.length_map]
  exact (simulates hl hfits hsorted).at ⟨it, hit, hstands⟩

end Block

end Reading

/-- **A block reads back what was added to it**: whatever the restart interval, the iterator over the block
of ascending entries is a cursor in their list. -/
theorem Block.iterator_at_built {comparator : Comparator} [Std.TransCmp comparator.compare] {interval : ℕ}
    {entries : List Entry} (hsorted : Sorted comparator.compare Prod.fst entries)
    (hfits : Fits (BlockBuilder.build interval entries)) :
    At (entryLt comparator) entries (Block.iterator comparator)
      (Block.new (BlockBuilder.build interval entries)).newIterator entries.length := by
  obtain ⟨cs, rs, rfl, hl, hbuild⟩ := BlockBuilder.build_eq interval entries
  rw [hbuild] at hfits ⊢
  exact Block.at_blockBytes hl hfits hsorted

/-- Three entries, the last at a restart point of its own. -/
theorem Block.iterator_at_built_three : At (entryLt bytewiseComparator) [([1], [7]), ([1, 2], []), ([2], [8, 8])]
    (Block.iterator bytewiseComparator)
    (Block.new (BlockBuilder.build 2 [([1], [7]), ([1, 2], []), ([2], [8, 8])])).newIterator 3 :=
  Block.iterator_at_built (by decide) (by decide)

end Leveldb
