import WorldToPE.Lib.JavaArray
import WorldToPE.Lib.Store
import WorldToPE.Engine.Coding

/-!
# WorldToPE.Engine.WriteBatch — a batch as one byte string

`db/write_batch.cc`: twelve bytes of header (a sequence number and a count) and one record for each
operation.  `iterate` hands the operations to a handler in order and then compares their number with
the count; its result here is the list of the handler's calls and the status.

* `Built`: the batches that the operations of the class can make, with the operations they hold.
* `Built.iterate_eq`: such a batch gives back exactly its operations.
* `Built.iterate_of_cut`: a batch that is cut off anywhere is refused.
-/

namespace Leveldb

open Java

/-- `Status`: the codes the engine's reading and writing paths return. -/
inductive Status
  | ok
  | notFound (msg : String)
  | corruption (msg : String)
  | invalidArgument (msg : String)
  | ioError (msg : String)
deriving DecidableEq, Repr

/-- A call of the handler: `Put` or `Delete`. -/
abbrev Op := Store.BatchOp Slice Slice

def kTypeDeletion : UInt8 := 0
def kTypeValue : UInt8 := 1

/-- The size of the header. -/
def kHeader : ℕ := 12

structure WriteBatch where
  rep : Slice
deriving DecidableEq

namespace WriteBatch

/-! ## The header -/

/-- `Clear`, and what the constructor makes. -/
def clear : WriteBatch := ⟨List.replicate kHeader 0⟩

/-- `WriteBatchInternal::Count`: an `int`. -/
def count (b : WriteBatch) : Int32 := (decodeFixed32 (b.rep.drop 8)).toInt32

def setCount (b : WriteBatch) (n : Int32) : WriteBatch :=
  ⟨overwrite b.rep 8 (encodeFixed32 n.toUInt32)⟩

def sequence (b : WriteBatch) : UInt64 := decodeFixed64 b.rep

def setSequence (b : WriteBatch) (seq : UInt64) : WriteBatch :=
  ⟨overwrite b.rep 0 (encodeFixed64 seq)⟩

/-! ## Adding operations -/

def put (b : WriteBatch) (key value : Slice) : WriteBatch :=
  ⟨putLengthPrefixedSlice
    (putLengthPrefixedSlice ((b.setCount (b.count + 1)).rep ++ [kTypeValue]) key) value⟩

def delete (b : WriteBatch) (key : Slice) : WriteBatch :=
  ⟨putLengthPrefixedSlice ((b.setCount (b.count + 1)).rep ++ [kTypeDeletion]) key⟩

/-- `WriteBatchInternal::Append`. -/
def append (dst src : WriteBatch) : WriteBatch :=
  ⟨(dst.setCount (dst.count + src.count)).rep ++ src.rep.drop kHeader⟩

/-! ## Reading the operations -/

/-- What one round of the loop of `Iterate` reads after the tag. -/
def readRecord (tag : UInt8) (input : Slice) : Except String (Op × Slice) :=
  if tag = kTypeValue then
    match getLengthPrefixedSlice input with
    | some (key, input) =>
      match getLengthPrefixedSlice input with
      | some (value, input) => .ok (.put key value, input)
      | none => .error "bad WriteBatch Put"
    | none => .error "bad WriteBatch Put"
  else if tag = kTypeDeletion then
    match getLengthPrefixedSlice input with
    | some (key, input) => .ok (.delete key, input)
    | none => .error "bad WriteBatch Delete"
  else .error "unknown WriteBatch tag"

theorem length_readRecord {tag : UInt8} {input rest : Slice} {op : Op}
    (h : readRecord tag input = .ok (op, rest)) : rest.length < input.length := by
  unfold readRecord at h
  split_ifs at h
  · rcases h1 : getLengthPrefixedSlice input with _ | ⟨key, in1⟩
    · simp [h1] at h
    · rcases h2 : getLengthPrefixedSlice in1 with _ | ⟨value, in2⟩
      · simp [h1, h2] at h
      · have l1 := length_getLengthPrefixedSlice h1
        have l2 := length_getLengthPrefixedSlice h2
        simp only [h1, h2, Except.ok.injEq, Prod.mk.injEq] at h
        rw [← h.2]
        omega
  · rcases h1 : getLengthPrefixedSlice input with _ | ⟨key, in1⟩
    · simp [h1] at h
    · have l1 := length_getLengthPrefixedSlice h1
      simp only [h1, Except.ok.injEq, Prod.mk.injEq] at h
      rw [← h.2]
      exact l1

/-- The loop of `Iterate`: the calls, and the number of rounds or the error that ends it. -/
def iterateLoop (found : Int32) (input : Slice) : List Op × Except String Int32 :=
  match input with
  | [] => ([], .ok found)
  | tag :: input =>
    match h : readRecord tag input with
    | .ok (op, rest) =>
      have := length_readRecord h
      let r := iterateLoop (found + 1) rest
      (op :: r.1, r.2)
    | .error msg => ([], .error msg)
termination_by input.length
decreasing_by
  simp only [List.length_cons]
  omega

def iterate (b : WriteBatch) : List Op × Status :=
  if b.rep.length < kHeader then ([], .corruption "malformed WriteBatch (too small)")
  else
    match iterateLoop 0 (b.rep.drop kHeader) with
    | (ops, .ok found) => (ops, if found ≠ b.count then .corruption "WriteBatch has wrong count" else .ok)
    | (ops, .error msg) => (ops, .corruption msg)

/-! ## The records -/

/-- The record of an operation. -/
def encodeOp : Op → Slice
  | .put key value => kTypeValue :: (putLengthPrefixedSlice [] key ++ putLengthPrefixedSlice [] value)
  | .delete key => kTypeDeletion :: putLengthPrefixedSlice [] key

/-- The sizes of the operation's slices fit a `uint32_t`. -/
def OpFits : Op → Prop
  | .put key value => Fits key ∧ Fits value
  | .delete key => Fits key

instance : DecidablePred OpFits := fun op => by
  cases op <;> unfold OpFits <;> infer_instance

theorem readRecord_put (key value rest : Slice) (hk : Fits key) (hv : Fits value) :
    readRecord kTypeValue (putLengthPrefixedSlice [] key ++ putLengthPrefixedSlice [] value ++ rest) =
      .ok (.put key value, rest) := by
  unfold readRecord
  rw [if_pos rfl, List.append_assoc, getLengthPrefixedSlice_put hk]
  simp only [getLengthPrefixedSlice_put hv]

theorem readRecord_delete (key rest : Slice) (hk : Fits key) :
    readRecord kTypeDeletion (putLengthPrefixedSlice [] key ++ rest) = .ok (.delete key, rest) := by
  unfold readRecord
  rw [if_neg (by decide), if_pos rfl, getLengthPrefixedSlice_put hk]

theorem iterateLoop_encodeOp {op : Op} (h : OpFits op) (found : Int32) (rest : Slice) :
    iterateLoop found (encodeOp op ++ rest) =
      (op :: (iterateLoop (found + 1) rest).1, (iterateLoop (found + 1) rest).2) := by
  cases op with
  | put key value =>
    rw [encodeOp, List.cons_append, iterateLoop]
    split
    · rename_i op' rest' heq
      rw [readRecord_put key value rest h.1 h.2] at heq
      obtain ⟨rfl, rfl⟩ := Prod.mk.inj (Except.ok.inj heq)
      rfl
    · rename_i msg heq
      rw [readRecord_put key value rest h.1 h.2] at heq
      cases heq
  | delete key =>
    rw [encodeOp, List.cons_append, iterateLoop]
    split
    · rename_i op' rest' heq
      rw [readRecord_delete key rest h] at heq
      obtain ⟨rfl, rfl⟩ := Prod.mk.inj (Except.ok.inj heq)
      rfl
    · rename_i msg heq
      rw [readRecord_delete key rest h] at heq
      cases heq

/-- The loop over the records of operations: it hands them on and goes on behind them. -/
theorem iterateLoop_flatMap : ∀ {ops : List Op}, (∀ op ∈ ops, OpFits op) → ∀ (found : Int32) (rest : Slice),
    iterateLoop found (ops.flatMap encodeOp ++ rest) =
      (ops ++ (iterateLoop (found + Int32.ofNat ops.length) rest).1,
        (iterateLoop (found + Int32.ofNat ops.length) rest).2)
  | [], _, found, rest => by
    simp
  | op :: ops, h, found, rest => by
    have hlen : found + 1 + Int32.ofNat ops.length = found + Int32.ofNat (op :: ops).length := by
      rw [List.length_cons, Int32.ofNat_add, Int32.add_assoc]
      exact congrArg (found + ·) (Int32.add_comm 1 (Int32.ofNat ops.length))
    rw [List.flatMap_cons, List.append_assoc, iterateLoop_encodeOp (h op List.mem_cons_self),
      iterateLoop_flatMap fun o ho => h o (List.mem_cons_of_mem _ ho), hlen]
    rfl

/-! ## What a batch holds -/

/-- The bytes of a batch that holds these operations. -/
def Holds (b : WriteBatch) (seq : UInt64) (ops : List Op) : Prop :=
  b.rep = encodeFixed64 seq ++ encodeFixed32 (UInt32.ofNat ops.length) ++ ops.flatMap encodeOp

variable {b src : WriteBatch} {seq seq' : UInt64} {ops ops' : List Op}

theorem holds_clear : Holds clear 0 [] := by
  unfold Holds clear kHeader
  decide +kernel

theorem Holds.drop (h : Holds b seq ops) : b.rep.drop kHeader = ops.flatMap encodeOp := by
  unfold Holds at h
  rw [h]
  exact List.drop_left' (by simp [kHeader])

theorem Holds.count_eq (h : Holds b seq ops) : b.count = Int32.ofNat ops.length := by
  unfold count
  unfold Holds at h
  rw [h, List.append_assoc, List.drop_left' (length_encodeFixed64 seq), decodeFixed32_encodeFixed32]
  rfl

theorem Holds.sequence_eq (h : Holds b seq ops) : b.sequence = seq := by
  unfold sequence
  unfold Holds at h
  rw [h, List.append_assoc, decodeFixed64_encodeFixed64]

theorem overwrite_middle {α : Type} (as bs cs bs' : List α) (h : bs'.length = bs.length) :
    overwrite (as ++ (bs ++ cs)) as.length bs' = as ++ (bs' ++ cs) := by
  unfold overwrite
  rw [List.take_left, h, ← List.append_assoc as bs cs, ← List.length_append, List.drop_left,
    List.append_assoc]

theorem Holds.setCount_rep (h : Holds b seq ops) (n : ℕ) :
    (b.setCount (Int32.ofNat n)).rep =
      encodeFixed64 seq ++ encodeFixed32 (UInt32.ofNat n) ++ ops.flatMap encodeOp := by
  unfold Holds at h
  show overwrite b.rep 8 _ = _
  rw [h, List.append_assoc, List.append_assoc, ← length_encodeFixed64 seq,
    overwrite_middle _ _ _ _ (by rw [length_encodeFixed32, length_encodeFixed32])]
  rfl

theorem Holds.setSequence (h : Holds b seq ops) (seq' : UInt64) : Holds (b.setSequence seq') seq' ops := by
  unfold Holds at h ⊢
  show overwrite b.rep 0 _ = _
  rw [h, List.append_assoc, List.append_assoc]
  exact overwrite_middle [] _ _ _ ((length_encodeFixed64 seq').trans (length_encodeFixed64 seq).symm)

theorem putLengthPrefixedSlice_eq (dst value : Slice) :
    putLengthPrefixedSlice dst value = dst ++ putLengthPrefixedSlice [] value := by
  unfold putLengthPrefixedSlice putVarint32
  rw [List.nil_append, List.append_assoc]

theorem ofNat_succ (n : ℕ) : Int32.ofNat n + 1 = Int32.ofNat (n + 1) := (Int32.ofNat_add n 1).symm

theorem Holds.put (h : Holds b seq ops) (key value : Slice) :
    Holds (b.put key value) seq (ops ++ [.put key value]) := by
  unfold Holds WriteBatch.put
  rw [h.count_eq, ofNat_succ]
  rw [h.setCount_rep, putLengthPrefixedSlice_eq _ value, putLengthPrefixedSlice_eq _ key]
  simp only [List.length_append, List.length_singleton, List.flatMap_append, List.flatMap_singleton,
    encodeOp, List.append_assoc, List.cons_append, List.nil_append]

theorem Holds.delete (h : Holds b seq ops) (key : Slice) :
    Holds (b.delete key) seq (ops ++ [.delete key]) := by
  unfold Holds WriteBatch.delete
  rw [h.count_eq, ofNat_succ]
  rw [h.setCount_rep, putLengthPrefixedSlice_eq _ key]
  simp only [List.length_append, List.length_singleton, List.flatMap_append, List.flatMap_singleton,
    encodeOp, List.append_assoc, List.cons_append, List.nil_append]

theorem Holds.append (h : Holds b seq ops) (h' : Holds src seq' ops') :
    Holds (b.append src) seq (ops ++ ops') := by
  unfold Holds WriteBatch.append
  rw [h.count_eq, h'.count_eq, ← Int32.ofNat_add]
  rw [h.setCount_rep, h'.drop]
  simp only [List.length_append, List.flatMap_append, List.append_assoc]

/-- The batches that the operations of the class make, with what they hold. -/
inductive Built : WriteBatch → List Op → Prop
  | clear : Built clear []
  | put {b : WriteBatch} {ops : List Op} (key value : Slice) : Built b ops → Fits key → Fits value →
      Built (b.put key value) (ops ++ [.put key value])
  | delete {b : WriteBatch} {ops : List Op} (key : Slice) : Built b ops → Fits key →
      Built (b.delete key) (ops ++ [.delete key])
  | append {b src : WriteBatch} {ops ops' : List Op} : Built b ops → Built src ops' →
      Built (b.append src) (ops ++ ops')
  | setSequence {b : WriteBatch} {ops : List Op} (seq : UInt64) : Built b ops →
      Built (b.setSequence seq) ops

theorem Built.holds (h : Built b ops) : (∃ seq, Holds b seq ops) ∧ ∀ op ∈ ops, OpFits op := by
  induction h with
  | clear => exact ⟨⟨0, holds_clear⟩, by simp⟩
  | put key value _ hk hv ih =>
    obtain ⟨⟨seq, ih⟩, hf⟩ := ih
    refine ⟨⟨seq, ih.put key value⟩, ?_⟩
    intro op hop
    rcases List.mem_append.mp hop with hop | hop
    · exact hf op hop
    · rw [List.mem_singleton.mp hop]
      exact ⟨hk, hv⟩
  | delete key _ hk ih =>
    obtain ⟨⟨seq, ih⟩, hf⟩ := ih
    refine ⟨⟨seq, ih.delete key⟩, ?_⟩
    intro op hop
    rcases List.mem_append.mp hop with hop | hop
    · exact hf op hop
    · rw [List.mem_singleton.mp hop]
      exact hk
  | append _ _ ih ih' =>
    obtain ⟨⟨seq, ih⟩, hf⟩ := ih
    obtain ⟨⟨seq', ih'⟩, hf'⟩ := ih'
    refine ⟨⟨seq, ih.append ih'⟩, ?_⟩
    intro op hop
    rcases List.mem_append.mp hop with hop | hop
    · exact hf op hop
    · exact hf' op hop
  | setSequence seq _ ih =>
    obtain ⟨⟨_, ih⟩, hf⟩ := ih
    exact ⟨⟨seq, ih.setSequence seq⟩, hf⟩

theorem iterateLoop_nil (found : Int32) : iterateLoop found [] = ([], .ok found) := by
  rw [iterateLoop]

theorem Holds.iterate (h : Holds b seq ops) (hf : ∀ op ∈ ops, OpFits op) : b.iterate = (ops, .ok) := by
  have hlen : ¬ b.rep.length < kHeader := by
    unfold Holds at h
    rw [h, kHeader, List.length_append, List.length_append, length_encodeFixed64, length_encodeFixed32]
    omega
  have hloop := iterateLoop_flatMap hf 0 []
  rw [List.append_nil, iterateLoop_nil, List.append_nil, Int32.zero_add] at hloop
  unfold WriteBatch.iterate
  rw [if_neg hlen, h.drop, hloop, h.count_eq]
  simp

/-- **The batch is its operations**: whatever calls made a batch, reading it gives the operations in
the order of the calls, and the count is right. -/
theorem Built.iterate_eq (h : Built b ops) : b.iterate = (ops, .ok) := by
  obtain ⟨⟨seq, hh⟩, hf⟩ := h.holds
  exact hh.iterate hf

theorem built_iterate_two :
    ((clear.put [1] [2]).append (clear.delete [3])).iterate = ([.put [1] [2], .delete [3]], .ok) :=
  Built.iterate_eq (.append (.put [1] [2] .clear (by decide) (by decide)) (.delete [3] .clear (by decide)))

/-! ## A batch that is cut off -/

theorem iterateLoop_of_error {tag : UInt8} {input : Slice} {msg : String}
    (h : readRecord tag input = .error msg) (found : Int32) :
    iterateLoop found (tag :: input) = ([], .error msg) := by
  rw [iterateLoop]
  split
  · rename_i heq
    rw [h] at heq
    cases heq
  · rename_i heq
    rw [h] at heq
    rw [Except.error.inj heq]

/-- A record that is cut off is refused. -/
theorem iterateLoop_of_cut {op : Op} (hf : OpFits op) {p q : Slice} (h : encodeOp op = p ++ q)
    (hp : p ≠ []) (hq : q ≠ []) (found : Int32) : ∃ msg, iterateLoop found p = ([], .error msg) := by
  obtain ⟨tag, p, rfl⟩ := List.exists_cons_of_ne_nil hp
  rw [List.cons_append] at h
  cases op with
  | delete key =>
    obtain ⟨rfl, hk⟩ := List.cons.inj h
    refine ⟨"bad WriteBatch Delete", iterateLoop_of_error ?_ found⟩
    unfold readRecord
    rw [if_neg (by decide), if_pos rfl, getLengthPrefixedSlice_of_cut hf hk hq]
  | put key value =>
    obtain ⟨rfl, hkv⟩ := List.cons.inj h
    refine ⟨"bad WriteBatch Put", iterateLoop_of_error ?_ found⟩
    unfold readRecord
    rw [if_pos rfl]
    rcases Frames.cut_append hkv with ⟨t, ht, hne⟩ | ⟨t, rfl, ht⟩
    · rw [getLengthPrefixedSlice_of_cut hf.1 ht hne]
    · -- the key is there, and bytes of the value are missing
      rw [getLengthPrefixedSlice_put hf.1]
      simp only [getLengthPrefixedSlice_of_cut hf.2 ht hq]

/-- **A batch that is cut off is refused**: wherever a part of its end is missing, the status is not
OK, and the handler has seen a prefix of the operations. -/
theorem Built.iterate_of_cut (h : Built b ops) (hlen : ops.length < 2 ^ 31) {p q : Slice}
    (hpq : b.rep = p ++ q) (hq : q ≠ []) :
    (WriteBatch.iterate ⟨p⟩).1 <+: ops ∧ (WriteBatch.iterate ⟨p⟩).2 ≠ .ok := by
  obtain ⟨⟨seq, hh⟩, hf⟩ := h.holds
  unfold WriteBatch.iterate
  by_cases hsmall : p.length < kHeader
  · rw [if_pos hsmall]
    exact ⟨List.nil_prefix, by simp⟩
  · rw [if_neg hsmall]
    have hbody : ops.flatMap encodeOp = p.drop kHeader ++ q := by
      rw [← hh.drop, hpq, List.drop_append_of_le_length (by omega)]
    obtain ⟨before, op, after, p', q', rfl, hp', hop, hq'⟩ := Frames.exists_cut hbody hq
    have hbefore : ∀ o ∈ before, OpFits o := fun o ho => hf o (List.mem_append_left _ ho)
    have hloop := iterateLoop_flatMap hbefore 0 p'
    rw [Int32.zero_add] at hloop
    simp only [hp', hloop]
    have hpre : before <+: before ++ op :: after := List.prefix_append _ _
    by_cases hnil : p' = []
    · -- only whole records are left, and the count tells that some are missing
      subst hnil
      rw [iterateLoop_nil, List.append_nil]
      refine ⟨hpre, ?_⟩
      have hcount : WriteBatch.count ⟨p⟩ = Int32.ofNat (before ++ op :: after).length := by
        rw [← hh.count_eq, count, count, hpq, decodeFixed32, decodeFixed32]
        simp only [kHeader] at hsmall
        rw [List.drop_append_of_le_length (by omega), List.take_append_of_le_length (by simp; omega)]
      have hne : Int32.ofNat before.length ≠ WriteBatch.count ⟨p⟩ := by
        rw [hcount]
        intro he
        have he' := congrArg Int32.toInt he
        rw [Int32.toInt_ofNat_of_lt (by simp at hlen ⊢; omega), Int32.toInt_ofNat_of_lt (by simpa using hlen)] at he'
        simp at he'
        omega
      simp [hne]
    · obtain ⟨msg, hmsg⟩ := iterateLoop_of_cut (hf op (by simp)) hop hnil hq' (Int32.ofNat before.length)
      rw [hmsg, List.append_nil]
      exact ⟨hpre, by simp⟩

/-- The last record lacks its key. -/
theorem built_iterate_cut :
    (WriteBatch.iterate ⟨((clear.put [1] [2]).delete [3]).rep.take 19⟩).1 <+: [.put [1] [2], .delete [3]] ∧
      (WriteBatch.iterate ⟨((clear.put [1] [2]).delete [3]).rep.take 19⟩).2 ≠ .ok :=
  Built.iterate_of_cut (.delete [3] (.put [1] [2] .clear (by decide) (by decide)) (by decide))
    (by decide) (List.take_append_drop 19 _).symm (by decide)

end WriteBatch

end Leveldb
