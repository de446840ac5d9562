import WorldToPE.Engine.DbImpl

/-!
# WorldToPE.Engine.DbRun — what the database is for

`Abs` is the purpose of the write path: a queue of callers and a history of numbered operations, of
which a crash may take back the last commits of a log, though none that was synced.  `Matches` says
that a state of the database is one of these; `Matches.step` that every event keeps it so.

* `run_spec`: over any run, with crashes, a lookup finds what the history says, and the last lookup is
  the one in the ordered map to which the operations of the history were applied.
* `synced_write_survives`: the operations of a caller who asked for a sync are never taken back.
-/

namespace Leveldb

open Versions

/-- The operations of a caller. -/
def Request.ops (w : Request) : List Op :=
  match w.batch with
  | some b => b.iterate.1
  | none => []

/-- The batch was made by the operations of its class, and its sizes fit. -/
def Request.Valid (w : Request) : Prop :=
  ∀ b ∈ w.batch, ∃ ops, b.Built ops ∧ (∀ op ∈ ops, MemTable.OpSmall op) ∧ ops.length < 2 ^ 31

/-- The commits of a log with the place of their end, and up to where it was synced. -/
structure AbsLog where
  groups : List (ℕ × List (Version Slice Slice))
  synced : ℕ

/-- The versions of the commits that end within the first `bytes` of the log. -/
def AbsLog.kept (l : AbsLog) (bytes : ℕ) : List (Version Slice Slice) :=
  ((l.groups.filter fun g => g.1 ≤ bytes).map Prod.snd).flatten

def AbsLog.versions (l : AbsLog) : List (Version Slice Slice) := (l.groups.map Prod.snd).flatten

/-- A queue, a history that is safe, and the commits of the logs. -/
structure Abs where
  queue : List Request
  finished : List (ℕ × Status)
  base : List (Version Slice Slice)
  old_logs : List AbsLog
  log : AbsLog

namespace Abs

def new : Abs := ⟨[], [], [], [], ⟨[], 0⟩⟩

def logs (a : Abs) : List AbsLog := a.old_logs ++ [a.log]

def history (a : Abs) : List (Version Slice Slice) := a.base ++ a.logs.flatMap AbsLog.versions

/-- What the events may do. -/
inductive Step : Abs → DbImpl.Event → Abs → Prop
  | arrive (a : Abs) (w : Request) : Step a (.arrive w) { a with queue := a.queue ++ [w] }
  /-- The first callers of the queue are done: their operations get the next numbers, in order, and are
  synced if one of them asked for it. -/
  | commit (a : Abs) (group rest : List Request) (s e synced : ℕ) : a.queue = group ++ rest →
      group ≠ [] → (∀ v ∈ a.history, v.seq < s) → (∀ g ∈ a.log.groups, g.1 < e) →
      a.log.synced ≤ synced → (∀ w ∈ group, w.sync = true → e ≤ synced) →
      Step a (.commit .ok)
        { a with
          queue := rest
          finished := a.finished ++ group.map fun w => (w.id, .ok)
          log := ⟨a.log.groups ++ [(e, number s (group.flatMap Request.ops))], synced⟩ }
  /-- A caller has nothing to write, or there is no room. -/
  | refuse (a : Abs) (room : Status) (w : Request) (rest : List Request) : a.queue = w :: rest →
      (w.batch = none ∨ room ≠ .ok) →
      Step a (.commit room) { a with queue := rest, finished := a.finished ++ [(w.id, room)] }
  | switch (a : Abs) : Step a .switchMemTable { a with old_logs := a.logs, log := ⟨[], 0⟩ }
  | compact (a : Abs) :
      Step a .compactMemTable { a with base := a.base ++ a.old_logs.flatMap AbsLog.versions, old_logs := [] }
  /-- Only commits whose end is lost are lost, and what was synced is not. -/
  | crash (a : Abs) (full : MemTable → Bool) (rests : List Slice) :
      List.Forall₂ (fun l rest => l.synced ≤ rest.length) a.logs rests →
      Step a (.crash full rests)
        ⟨[], [], a.base ++ (List.zipWith (fun l rest => l.kept rest.length) a.logs rests).flatten, [], ⟨[], 0⟩⟩

inductive Run : Abs → List DbImpl.Event → Abs → Prop
  | nil (a : Abs) : Run a [] a
  | cons {a b c : Abs} {e : DbImpl.Event} {es : List DbImpl.Event} : Step a e b → Run b es c →
      Run a (e :: es) c

theorem Run.append {a b c : Abs} {es es' : List DbImpl.Event} (h : Run a es b) (h' : Run b es' c) :
    Run a (es ++ es') c := by
  induction h with
  | nil a => exact h'
  | cons hstep _ ih => exact .cons hstep (ih h')

/-! ## What cannot be lost -/

/-- The version is in the base, or in a commit that was synced. -/
def Durable (v : Version Slice Slice) (a : Abs) : Prop :=
  v ∈ a.base ∨ ∃ l ∈ a.logs, ∃ g ∈ l.groups, g.1 ≤ l.synced ∧ v ∈ g.2

theorem Durable.mem_history {v : Version Slice Slice} {a : Abs} (h : Durable v a) : v ∈ a.history := by
  rcases h with h | ⟨l, hl, g, hg, -, hv⟩
  · exact List.mem_append_left _ h
  · refine List.mem_append_right _ (List.mem_flatMap.mpr ⟨l, hl, ?_⟩)
    exact List.mem_flatten.mpr ⟨g.2, List.mem_map_of_mem hg, hv⟩

/-- A commit that ends before the sync ends before the cut. -/
theorem mem_kept {v : Version Slice Slice} {l : AbsLog} {g : ℕ × List (Version Slice Slice)}
    {logs : List AbsLog} {rests : List Slice}
    (h : List.Forall₂ (fun l rest => l.synced ≤ rest.length) logs rests) (hl : l ∈ logs) (hg : g ∈ l.groups)
    (hend : g.1 ≤ l.synced) (hv : v ∈ g.2) :
    v ∈ (List.zipWith (fun l rest => l.kept rest.length) logs rests).flatten := by
  induction h with
  | nil => exact absurd hl List.not_mem_nil
  | @cons l' rest logs rests hle _ ih =>
    rw [List.zipWith_cons_cons, List.flatten_cons, List.mem_append]
    rcases List.mem_cons.mp hl with rfl | hl
    · refine Or.inl (List.mem_flatten.mpr ⟨g.2, List.mem_map_of_mem ?_, hv⟩)
      exact List.mem_filter.mpr ⟨hg, decide_eq_true (hend.trans hle)⟩
    · exact Or.inr (ih hl)

/-- No event, a crash included, takes back what is durable. -/
theorem Durable.step {v : Version Slice Slice} {a b : Abs} {e : DbImpl.Event} (h : Durable v a)
    (hstep : Step a e b) : Durable v b := by
  cases hstep with
  | arrive w => exact h
  | commit group rest s e synced _ _ _ _ hle _ =>
    rcases h with h | ⟨l, hl, g, hg, hend, hv⟩
    · exact Or.inl h
    · right
      rcases List.mem_append.mp hl with hl | hl
      · exact ⟨l, List.mem_append_left _ hl, g, hg, hend, hv⟩
      · rw [List.mem_singleton.mp hl] at hg hend
        exact ⟨_, List.mem_append_right _ List.mem_cons_self, g, List.mem_append_left _ hg, hend.trans hle, hv⟩
  | refuse room w rest _ _ => exact h
  | switch =>
    refine h.imp_right fun ⟨l, hl, hg⟩ => ⟨l, ?_, hg⟩
    exact List.mem_append_left _ hl
  | compact =>
    rcases h with h | ⟨l, hl, g, hg, hend, hv⟩
    · exact Or.inl (List.mem_append_left _ h)
    · rcases List.mem_append.mp hl with hl | hl
      · refine Or.inl (List.mem_append_right _ (List.mem_flatMap.mpr ⟨l, hl, ?_⟩))
        exact List.mem_flatten.mpr ⟨g.2, List.mem_map_of_mem hg, hv⟩
      · exact Or.inr ⟨l, List.mem_append_right _ hl, g, hg, hend, hv⟩
  | crash full rests hsynced =>
    left
    rcases h with h | ⟨l, hl, g, hg, hend, hv⟩
    · exact List.mem_append_left _ h
    · exact List.mem_append_right _ (mem_kept hsynced hl hg hend hv)

theorem Durable.run {v : Version Slice Slice} {a b : Abs} {es : List DbImpl.Event} (h : Durable v a)
    (hrun : Run a es b) : Durable v b := by
  induction hrun with
  | nil a => exact h
  | cons hstep _ ih => exact ih (h.step hstep)

/-- A caller of the group who asked for a sync. -/
theorem Step.durable {a b : Abs} (h : Step a (.commit .ok) b) {served : List Request}
    (hq : a.queue = served ++ b.queue) {w : Request} (hw : w ∈ served) (hsync : w.sync = true) :
    ∃ s, ∀ v ∈ number s w.ops, Durable v b := by
  cases h with
  | commit group rest s e synced hgroup _ _ _ _ hdone =>
    obtain rfl : group = served := List.append_cancel_right (hgroup.symm.trans hq)
    obtain ⟨ws, ws', rfl⟩ := List.append_of_mem hw
    refine ⟨s + (ws.flatMap Request.ops).length, fun v hv => Or.inr ?_⟩
    refine ⟨_, List.mem_append_right _ List.mem_cons_self, _, List.mem_append_right _ List.mem_cons_self,
      hdone w hw hsync, ?_⟩
    rw [List.flatMap_append, List.flatMap_cons, number_append, number_append]
    exact List.mem_append_right _ (List.mem_append_left _ hv)
  | refuse room w' rest hq' hnone =>
    have hs : served = [w'] := List.append_cancel_right (hq.symm.trans hq')
    rw [hs, List.mem_singleton] at hw
    have hb : w.batch = none := hw ▸ hnone.resolve_right fun h => h rfl
    refine ⟨0, fun v hv => absurd hv ?_⟩
    rw [Request.ops, hb]
    exact List.not_mem_nil

end Abs

namespace DbImpl

/-! ## Batches that are written together -/

theorem two_le_length_encodeOp (op : Op) : 2 ≤ (WriteBatch.encodeOp op).length := by
  have hpos (value : Slice) : 1 ≤ (putLengthPrefixedSlice [] value).length := by
    have hne : encodeVarint32 (UInt32.ofNat value.length) ≠ [] := by
      rw [encodeVarint32_eq]
      exact Varint.encode_ne_nil 4 _
    have := List.length_pos_iff.mpr hne
    rw [putLengthPrefixedSlice, putVarint32, List.nil_append, List.length_append]
    omega
  cases op with
  | put key value =>
    have h1 := hpos key
    have h2 := hpos value
    simp only [WriteBatch.encodeOp, List.length_cons, List.length_append]
    omega
  | delete key =>
    have h1 := hpos key
    simp only [WriteBatch.encodeOp, List.length_cons]
    omega

theorem two_mul_length_le_flatMap (ops : List Op) :
    2 * ops.length ≤ (ops.flatMap WriteBatch.encodeOp).length := by
  induction ops with
  | nil => simp
  | cons op ops ih =>
    have h := two_le_length_encodeOp op
    rw [List.flatMap_cons, List.length_append, List.length_cons]
    omega

/-- A batch takes at least two bytes for each operation. -/
theorem two_mul_length_le {b : WriteBatch} {seq : UInt64} {ops : List Op} (h : b.Holds seq ops) :
    2 * ops.length ≤ b.rep.length := by
  have hflat := two_mul_length_le_flatMap ops
  unfold WriteBatch.Holds at h
  rw [h, List.length_append]
  omega

/-- A valid batch holds its operations. -/
theorem valid_holds {w : Request} (h : w.Valid) {b : WriteBatch} (hb : w.batch = some b) :
    (∃ seq, b.Holds seq w.ops) ∧ (∀ op ∈ w.ops, MemTable.OpSmall op) ∧ w.ops.length < 2 ^ 31 := by
  obtain ⟨ops, hbuilt, hsmall, hlen⟩ := h b hb
  obtain ⟨⟨seq, hholds⟩, hfits⟩ := hbuilt.holds
  have hops : w.ops = ops := by
    unfold Request.ops
    rw [hb]
    exact congrArg Prod.fst (hholds.iterate hfits)
  rw [hops]
  exact ⟨⟨seq, hholds⟩, hsmall, hlen⟩

/-- What the loop of `BuildBatchGroup` has made of a batch that held `ops`: one that holds the operations
of the callers it took, in order, and their number stays an `int`, since what is added is bounded by
its size.  Nobody among them asked for a sync that the first did not. -/
structure Grouped (first : Request) (max_size : ℕ) (ops : List Op) (ws : List Request)
    (r : WriteBatch × ℕ) : Prop where
  holds : ∃ seq, r.1.Holds seq (ops ++ (ws.take r.2).flatMap Request.ops)
  small : ∀ op ∈ ops ++ (ws.take r.2).flatMap Request.ops, MemTable.OpSmall op
  length : (ops ++ (ws.take r.2).flatMap Request.ops).length = ops.length ∨
    2 * (ops ++ (ws.take r.2).flatMap Request.ops).length ≤ max_size
  sync : ∀ w ∈ ws.take r.2, w.sync = true → first.sync = true

theorem Grouped.stop {first : Request} {max_size : ℕ} {ops : List Op} {ws : List Request}
    {result : WriteBatch} {seq : UInt64} (hholds : result.Holds seq ops)
    (hsmall : ∀ op ∈ ops, MemTable.OpSmall op) : Grouped first max_size ops ws (result, 0) where
  holds := ⟨seq, by simpa using hholds⟩
  small := by simpa using hsmall
  length := Or.inl (by simp)
  sync := by simp

theorem groupLoop_spec (first : Request) (max_size : ℕ) : ∀ (ws : List Request) {size : ℕ} (isFirst : Bool)
    {result : WriteBatch} {seq : UInt64} {ops : List Op}, (∀ w ∈ ws, w.Valid) → result.Holds seq ops →
    (∀ op ∈ ops, MemTable.OpSmall op) → 2 * ops.length ≤ size →
    Grouped first max_size ops ws (groupLoop first max_size size isFirst result ws)
  | [], size, isFirst, result, seq, ops, _, hholds, hsmall, _ => by
    rw [groupLoop]
    exact Grouped.stop hholds hsmall
  | w :: ws, size, isFirst, result, seq, ops, hvalid, hholds, hsmall, hsize => by
    have hstop : Grouped first max_size ops (w :: ws) (result, 0) := Grouped.stop hholds hsmall
    have hvalid' : ∀ w ∈ ws, w.Valid := fun w hw => hvalid w (List.mem_cons_of_mem _ hw)
    unfold groupLoop
    by_cases hsync : (w.sync && !first.sync) = true
    · rw [if_pos hsync]
      exact hstop
    · rw [if_neg hsync]
      have hw : w.sync = true → first.sync = true := by
        intro hw
        rw [hw, Bool.true_and, Bool.not_eq_true', Bool.not_eq_false] at hsync
        exact hsync
      cases hb : w.batch with
      | none =>
        have hops : w.ops = [] := by
          unfold Request.ops
          rw [hb]
        have ih := groupLoop_spec first max_size ws isFirst hvalid' hholds hsmall hsize
        have htake (n : ℕ) : ((w :: ws).take (n + 1)).flatMap Request.ops = (ws.take n).flatMap Request.ops := by
          rw [List.take_succ_cons, List.flatMap_cons, hops, List.nil_append]
        simp only
        refine ⟨?_, ?_, ?_, ?_⟩
        · rw [htake]
          exact ih.holds
        · rw [htake]
          exact ih.small
        · rw [htake]
          exact ih.length
        · rw [List.take_succ_cons]
          exact fun x hx => (List.mem_cons.mp hx).elim (fun h => h ▸ hw) (ih.sync x)
      | some b =>
        simp only
        by_cases hbig : size + b.rep.length > max_size
        · rw [if_pos hbig]
          exact hstop
        · rw [if_neg hbig]
          obtain ⟨⟨seqb, hhb⟩, hsb, -⟩ := valid_holds (hvalid w List.mem_cons_self) hb
          obtain ⟨seq₁, hres⟩ :
              ∃ seq₁, (if isFirst then WriteBatch.clear.append result else result).Holds seq₁ ops := by
            cases isFirst with
            | true => exact ⟨0, WriteBatch.holds_clear.append hholds⟩
            | false => exact ⟨seq, hholds⟩
          have hlen := two_mul_length_le hhb
          have hlen' : 2 * (ops ++ w.ops).length ≤ size + b.rep.length := by
            rw [List.length_append]
            omega
          have ih := groupLoop_spec first max_size ws false hvalid' (hres.append hhb)
            (fun op hop => (List.mem_append.mp hop).elim (hsmall op) (hsb op)) hlen'
          have htake (n : ℕ) : ops ++ ((w :: ws).take (n + 1)).flatMap Request.ops =
              ops ++ w.ops ++ (ws.take n).flatMap Request.ops := by
            rw [List.take_succ_cons, List.flatMap_cons, List.append_assoc]
          refine ⟨?_, ?_, Or.inr ?_, ?_⟩
          · rw [htake]
            exact ih.holds
          · rw [htake]
            exact ih.small
          · rw [htake]
            rcases ih.length with hl | hl
            · rw [hl, List.length_append]
              omega
            · exact hl
          · rw [List.take_succ_cons]
            exact fun x hx => (List.mem_cons.mp hx).elim (fun h => h ▸ hw) (ih.sync x)

/-- The group of the front caller: what it writes, and for whom. -/
theorem buildBatchGroup_spec {first : Request} {batch : WriteBatch} {rest : List Request}
    (hb : first.batch = some batch) (hvalid : ∀ w ∈ first :: rest, w.Valid) :
    ∃ seq ops, ops = (first :: rest.take (buildBatchGroup first batch rest).2).flatMap Request.ops ∧
      (buildBatchGroup first batch rest).1.Holds seq ops ∧ (∀ op ∈ ops, MemTable.OpSmall op) ∧
      ops.length < 2 ^ 31 ∧
      ∀ w ∈ first :: rest.take (buildBatchGroup first batch rest).2, w.sync = true → first.sync = true := by
  obtain ⟨⟨seq, hh⟩, hs, hlen⟩ := valid_holds (hvalid first List.mem_cons_self) hb
  have hgroup : Grouped first
      (if batch.rep.length ≤ 128 <<< 10 then batch.rep.length + 128 <<< 10 else 1 <<< 20) first.ops rest
      (buildBatchGroup first batch rest) :=
    groupLoop_spec first _ rest true (fun w hw => hvalid w (List.mem_cons_of_mem _ hw)) hh hs
      (two_mul_length_le hh)
  obtain ⟨seq', hh'⟩ := hgroup.holds
  refine ⟨seq', _, rfl, ?_, ?_, ?_, ?_⟩
  · rw [List.flatMap_cons]
    exact hh'
  · rw [List.flatMap_cons]
    exact hgroup.small
  · rw [List.flatMap_cons]
    rcases hgroup.length with hl | hl
    · rw [hl]
      exact hlen
    · split_ifs at hl <;> omega
  · exact fun w hw => (List.mem_cons.mp hw).elim (fun h => h ▸ id) (hgroup.sync w)

/-! ## Tables, the newest first -/

abbrev History := List (Version Slice Slice)

theorem lookup_eq {ms : List MemTable} {ls : List History} (h : List.Forall₂ MemTable.Represents ms ls)
    (hasc : Ascending ls.reverse.flatten) {k : Slice} (hk : k.length + 8 < 2 ^ 32) {s : UInt64}
    (hs : s ≤ kMaxSequenceNumber) :
    lookup k s ms = (newest ls.reverse.flatten k s.toNat).map MemTable.answer := by
  induction h with
  | nil => rfl
  | @cons m l ms ls hm hms ih =>
    rw [List.reverse_cons, List.flatten_append, List.flatten_singleton] at hasc ⊢
    obtain ⟨hasc₁, hasc₂, hlt⟩ := List.pairwise_append.mp hasc
    have hmem (v : Version Slice Slice) : v ∈ l ++ ls.reverse.flatten ↔ v ∈ ls.reverse.flatten ++ l := by
      simp only [List.mem_append]
      exact or_comm
    have hd : Distinct (l ++ ls.reverse.flatten) :=
      hasc.distinct.of_subset fun v hv => (hmem v).mp hv
    have hnewer : Newer l ls.reverse.flatten := fun v hv w hw _ => hlt w hw v hv
    rw [lookup, ih hasc₁, hm.get hk hs (Ascending.distinct hasc₂), ← newest_congr hd hmem,
      newest_append hd hnewer]
    cases newest l k s.toNat <;> rfl

theorem writeLevel0Table_spec {m : MemTable} {l : History} {tables : List MemTable} {files : List History}
    (hm : m.Represents l) (h : List.Forall₂ MemTable.Represents tables files) :
    ∃ files', List.Forall₂ MemTable.Represents (writeLevel0Table m tables) files' ∧
      files'.reverse.flatten = files.reverse.flatten ++ l := by
  unfold writeLevel0Table
  split_ifs with hempty
  · have hl : l = [] := by
      rw [List.eq_nil_iff_forall_not_mem]
      intro v hv
      have hmem := (hm.mem_iff _).mpr ⟨v, hv, rfl⟩
      rw [List.isEmpty_iff.mp hempty] at hmem
      exact absurd hmem List.not_mem_nil
    exact ⟨files, h, by rw [hl, List.append_nil]⟩
  · refine ⟨l :: files, List.Forall₂.cons hm h, ?_⟩
    rw [List.reverse_cons, List.flatten_append, List.flatten_singleton]

theorem represents_empty_iff {l : History} : MemTable.empty.Represents l ↔ l = [] := by
  constructor
  · intro h
    rw [List.eq_nil_iff_forall_not_mem]
    intro v hv
    exact absurd ((h.mem_iff _).mpr ⟨v, hv, rfl⟩) List.not_mem_nil
  · rintro rfl
    exact MemTable.represents_empty

/-! ## Logs -/

/-- The record is a batch with these versions, none of them above `last`. -/
def RecHolds (last : ℕ) (record : Slice) (vs : History) : Prop :=
  ∃ seq ops, WriteBatch.Holds ⟨record⟩ seq ops ∧ (∀ op ∈ ops, MemTable.OpSmall op) ∧
    vs = number seq.toNat ops ∧ ops.length < 2 ^ 31 ∧ 0 < seq.toNat ∧ seq.toNat + ops.length ≤ last + 1

/-- The log has a record for each commit, which ends where it says. -/
def LogHolds (last : ℕ) (w : Log.Writer) (groups : List (ℕ × History)) : Prop :=
  ∃ records, w = Log.writeAll records ∧ List.Forall₂ (RecHolds last) records (groups.map Prod.snd) ∧
    groups.map Prod.fst =
      (List.range records.length).map fun j => (Log.writeAll (records.take (j + 1))).dest.length

theorem logHolds_new (last : ℕ) : LogHolds last ⟨[], 0⟩ [] := ⟨[], rfl, List.Forall₂.nil, rfl⟩

theorem RecHolds.mono {last last' : ℕ} (hle : last ≤ last') {record : Slice} {vs : History}
    (h : RecHolds last record vs) : RecHolds last' record vs := by
  obtain ⟨seq, ops, hh, hs, hv, hlen, hpos, hmax⟩ := h
  exact ⟨seq, ops, hh, hs, hv, hlen, hpos, by omega⟩

theorem LogHolds.mono {last last' : ℕ} (hle : last ≤ last') {w : Log.Writer} {groups : List (ℕ × History)}
    (h : LogHolds last w groups) : LogHolds last' w groups := by
  obtain ⟨records, hw, hholds, hends⟩ := h
  exact ⟨records, hw, hholds.imp fun _ _ => RecHolds.mono hle, hends⟩

theorem LogHolds.addRecord {last : ℕ} {w : Log.Writer} {groups : List (ℕ × History)}
    (h : LogHolds last w groups) {record : Slice} {vs : History} (hr : RecHolds last record vs) :
    LogHolds last (w.addRecord record) (groups ++ [((w.addRecord record).dest.length, vs)]) := by
  obtain ⟨records, rfl, hholds, hends⟩ := h
  have hw : Log.writeAll (records ++ [record]) = (Log.writeAll records).addRecord record := by
    unfold Log.writeAll
    rw [List.foldl_append]
    rfl
  refine ⟨records ++ [record], hw.symm, ?_, ?_⟩
  · rw [List.map_append]
    exact List.rel_append hholds (List.Forall₂.cons hr List.Forall₂.nil)
  · rw [List.map_append, hends, List.length_append, List.length_singleton, List.range_succ, List.map_append]
    congr 1
    · refine List.map_congr_left fun j hj => ?_
      rw [List.take_append_of_le_length (List.mem_range.mp hj)]
    · rw [List.map_singleton, List.map_singleton,
        List.take_of_length_le (by rw [List.length_append, List.length_singleton]), hw]

/-- The elements with a property, when these are the first ones. -/
theorem filter_eq_take {α : Type} {P : α → Bool} : ∀ {l : List α} {k : ℕ},
    (∀ j a, l[j]? = some a → P a = decide (j < k)) → l.filter P = l.take k
  | [], _, _ => by simp
  | a :: l, 0, h => by
    rw [List.take_zero, List.filter_eq_nil_iff]
    intro b hb
    obtain ⟨j, hj⟩ := List.mem_iff_getElem?.mp hb
    rw [h j b hj]
    simp
  | a :: l, k + 1, h => by
    have h0 := h 0 a rfl
    rw [List.take_succ_cons, List.filter_cons_of_pos (by simpa using h0),
      filter_eq_take (k := k) fun j b hj => by simpa using h (j + 1) b hj]

/-- What a reader finds in a log that is cut off: the commits that end before the cut. -/
theorem LogHolds.readAll {last : ℕ} {w : Log.Writer} {groups : List (ℕ × History)}
    (h : LogHolds last w groups) {rest : Slice} (hrest : rest <+: w.dest) :
    List.Forall₂ (RecHolds last) (Log.Reader.new rest true).readAll.1
      ((groups.filter fun g => g.1 ≤ rest.length).map Prod.snd) := by
  obtain ⟨records, rfl, hholds, hends⟩ := h
  obtain ⟨q, hq⟩ := hrest
  obtain ⟨k, hk, hmax⟩ := Log.readAll_truncated hq.symm true
  have hlen : groups.length = records.length := by
    rw [hholds.length_eq, List.length_map]
  have hfilter : (groups.filter fun g => g.1 ≤ rest.length) = groups.take k := by
    refine filter_eq_take fun j g hj => ?_
    have hjlt : j < groups.length := (List.getElem?_eq_some_iff.mp hj).1
    have he : g.1 = (Log.writeAll (records.take (j + 1))).dest.length := by
      have h1 : (groups.map Prod.fst)[j]? = some g.1 := by
        rw [List.getElem?_map, hj]
        rfl
      rw [hends, List.getElem?_map, List.getElem?_range (by omega)] at h1
      exact (Option.some.inj h1).symm
    rw [he]
    exact decide_eq_decide.mpr ((hmax (j + 1) (by omega)).symm.trans Nat.succ_le_iff)
  rw [hk, hfilter, List.map_take]
  exact List.forall₂_take k hholds

/-- The count of a batch as the code adds it to a sequence number. -/
theorem toNat_count {b : WriteBatch} {seq : UInt64} {ops : List Op} (h : b.Holds seq ops)
    (hlen : ops.length < 2 ^ 31) : b.count.toInt64.toUInt64.toNat = ops.length := by
  have hn : (Int32.ofNat ops.length).toInt = ops.length := Int32.toInt_ofNat_of_lt hlen
  have h64 : (Int32.ofNat ops.length).toInt64 = Int64.ofNat ops.length := by
    apply Int64.toInt_inj.mp
    rw [Int32.toInt_toInt64, hn, Int64.toInt_ofNat_of_lt (by omega)]
  rw [h.count_eq, h64]
  show (UInt64.ofNat ops.length).toNat = ops.length
  exact UInt64.toNat_ofNat_of_lt' (hlen.trans (by norm_num))

/-- A commit ends before the next one. -/
theorem LogHolds.lt_addRecord {last : ℕ} {w : Log.Writer} {groups : List (ℕ × History)}
    (h : LogHolds last w groups) (record : Slice) : ∀ g ∈ groups, g.1 < (w.addRecord record).dest.length := by
  obtain ⟨records, rfl, -, hends⟩ := h
  intro g hg
  have hfst : g.1 ∈ groups.map Prod.fst := List.mem_map_of_mem hg
  rw [hends] at hfst
  obtain ⟨j, -, hj⟩ := List.mem_map.mp hfst
  obtain ⟨bytes, hbytes⟩ :=
    Log.Writer.dest_foldl (records.drop (j + 1)) (Log.writeAll (records.take (j + 1)))
  have hall : (records.drop (j + 1)).foldl Log.Writer.addRecord (Log.writeAll (records.take (j + 1))) =
      Log.writeAll records := by
    unfold Log.writeAll
    rw [← List.foldl_append, List.take_append_drop]
  rw [hall] at hbytes
  have hlt := Log.Writer.length_lt_addRecordLoop true record (Log.writeAll records)
  rw [← hj]
  refine lt_of_le_of_lt ?_ hlt
  rw [hbytes, List.length_append]
  exact Nat.le_add_right _ _

/-- The log file is that of the purpose. -/
def FileHolds (last : ℕ) (f : LogFile) (l : AbsLog) : Prop :=
  LogHolds last f.writer l.groups ∧ f.synced = l.synced ∧ f.synced ≤ f.writer.dest.length

theorem fileHolds_new (last : ℕ) : FileHolds last ⟨⟨[], 0⟩, 0⟩ ⟨[], 0⟩ := ⟨logHolds_new last, rfl, le_rfl⟩

theorem FileHolds.mono {last last' : ℕ} (hle : last ≤ last') {f : LogFile} {l : AbsLog}
    (h : FileHolds last f l) : FileHolds last' f l := ⟨h.1.mono hle, h.2⟩

/-- What the readers find in the logs after a crash. -/
theorem readAll_rests {last : ℕ} {fs : List LogFile} {logs : List AbsLog} {rests : List Slice}
    (hfs : List.Forall₂ (FileHolds last) fs logs) (hrests : List.Forall₂ LogFile.Leaves fs rests) :
    List.Forall₂ (fun l rest => l.synced ≤ rest.length) logs rests ∧
    (List.zipWith (fun l rest => l.kept rest.length) logs rests).flatten.Sublist
      (logs.flatMap AbsLog.versions) ∧
    ∃ vsss, List.Forall₂
        (fun file vss => List.Forall₂ (RecHolds last) (Log.Reader.new file true).readAll.1 vss) rests vsss ∧
      vsss.flatten.flatten = (List.zipWith (fun l rest => l.kept rest.length) logs rests).flatten := by
  induction hfs generalizing rests with
  | nil =>
    cases hrests
    exact ⟨List.Forall₂.nil, List.Sublist.refl _, [], List.Forall₂.nil, rfl⟩
  | @cons f l fs logs hf _ ih =>
    cases hrests with
    | @cons _ rest _ rests hleaves hrests =>
      obtain ⟨hs, hsub, vsss, hvsss, hflat⟩ := ih hrests
      refine ⟨List.Forall₂.cons (hf.2.1 ▸ hleaves.2) hs, ?_, _ :: vsss,
        List.Forall₂.cons (hf.1.readAll hleaves.1) hvsss, ?_⟩
      · rw [List.zipWith_cons_cons, List.flatten_cons, List.flatMap_cons]
        exact List.Sublist.append (List.filter_sublist.map _).flatten hsub
      · rw [List.flatten_cons, List.flatten_append, hflat, List.zipWith_cons_cons, List.flatten_cons]
        rfl

/-! ## Recovery -/

/-- The tables that recovery has made hold the versions that it has read. -/
structure Recovered (last manifest : ℕ) (st : Recovery) (l : History) : Prop where
  parts : ∃ files lm, List.Forall₂ MemTable.Represents st.tables files ∧
    (st.mem.getD .empty).Represents lm ∧ l = files.reverse.flatten ++ lm
  le_max : ∀ v ∈ l, v.seq ≤ manifest ∨ v.seq ≤ st.max_sequence.toNat
  max_le : st.max_sequence.toNat ≤ last

variable {last manifest : ℕ} (full : MemTable → Bool) {st : Recovery} {l : History}

/-- What `RecoverLogFile` takes for the last number of a batch. -/
theorem toNat_last_seq {b : WriteBatch} {seq : UInt64} {ops : List Op} (hh : b.Holds seq ops)
    (hlen : ops.length < 2 ^ 31) (hpos : 0 < seq.toNat) (hmax : seq.toNat + ops.length ≤ 2 ^ 56) :
    (b.sequence + b.count.toInt64.toUInt64 - 1).toNat + 1 = seq.toNat + ops.length := by
  have hcount := toNat_count hh hlen
  rw [hh.sequence_eq, UInt64.toNat_sub, UInt64.toNat_add, hcount]
  have h1 : (1 : UInt64).toNat = 1 := rfl
  omega

theorem Recovered.record (h : Recovered last manifest st l) (hlast : last < 2 ^ 56) {record : Slice}
    {vs : History} (hr : RecHolds last record vs) (hasc : Versions.Ascending (l ++ vs)) :
    Recovered last manifest (recoverRecord full st record) (l ++ vs) := by
  obtain ⟨files, lm, hfiles, hmem, rfl⟩ := h.parts
  obtain ⟨seq, ops, hh, hs, rfl, hlen, hpos, hmax⟩ := hr
  rw [List.append_assoc] at hasc
  obtain ⟨-, hins⟩ := hmem.insertInto hh hs (List.pairwise_append.mp hasc).2.1 (by omega)
  have hseq := toNat_last_seq hh hlen hpos (by omega)
  -- the largest number so far covers the new versions too
  obtain ⟨M, hM, hold, hnew, hMle⟩ : ∃ M : UInt64,
      M = (if WriteBatch.sequence ⟨record⟩ + (WriteBatch.count ⟨record⟩).toInt64.toUInt64 - 1 > st.max_sequence
        then WriteBatch.sequence ⟨record⟩ + (WriteBatch.count ⟨record⟩).toInt64.toUInt64 - 1
        else st.max_sequence) ∧
      st.max_sequence.toNat ≤ M.toNat ∧ seq.toNat + ops.length ≤ M.toNat + 1 ∧ M.toNat ≤ last := by
    refine ⟨_, rfl, ?_⟩
    have hle := h.max_le
    split_ifs with hgt
    · have := UInt64.lt_iff_toNat_lt.mp hgt
      omega
    · have := UInt64.le_iff_toNat_le.mp (UInt64.not_lt.mp hgt)
      omega
  have hlemax : ∀ v ∈ files.reverse.flatten ++ lm ++ number seq.toNat ops,
      v.seq ≤ manifest ∨ v.seq ≤ M.toNat := by
    intro v hv
    rcases List.mem_append.mp hv with hv | hv
    · exact (h.le_max v hv).imp_right fun hle => hle.trans hold
    · have := (seq_of_mem_number hv).2
      exact Or.inr (by omega)
  have hsize : ¬ record.length < 12 := by
    have hrep : record = _ := hh
    rw [hrep]
    simp only [List.length_append, length_encodeFixed64, length_encodeFixed32]
    omega
  unfold recoverRecord
  rw [if_neg hsize]
  simp only
  rw [← hM]
  split_ifs with hfull
  · obtain ⟨files', hfiles', hflat⟩ := writeLevel0Table_spec hins hfiles
    refine ⟨⟨files', [], hfiles', MemTable.represents_empty, ?_⟩, hlemax, hMle⟩
    rw [hflat, List.append_nil, List.append_assoc]
  · exact ⟨⟨files, _, hfiles, hins, List.append_assoc _ _ _⟩, hlemax, hMle⟩

theorem Recovered.records (hlast : last < 2 ^ 56) {records : List Slice} {vss : List History}
    (hr : List.Forall₂ (RecHolds last) records vss) (h : Recovered last manifest st l)
    (hasc : Versions.Ascending (l ++ vss.flatten)) :
    Recovered last manifest (records.foldl (recoverRecord full) st) (l ++ vss.flatten) := by
  induction hr generalizing st l with
  | nil =>
    rw [List.flatten_nil, List.append_nil]
    exact h
  | @cons record vs records vss hrec _ ih =>
    rw [List.flatten_cons, ← List.append_assoc] at hasc ⊢
    exact ih (h.record full hlast hrec (List.pairwise_append.mp hasc).1) hasc

/-- A log file is read into tables, and nothing of it stays in memory. -/
theorem Recovered.logFile (h : Recovered last manifest st l) (hlast : last < 2 ^ 56) (hnone : st.mem = none)
    {file : Slice} {vss : List History}
    (hr : List.Forall₂ (RecHolds last) (Log.Reader.new file true).readAll.1 vss)
    (hasc : Versions.Ascending (l ++ vss.flatten)) :
    Recovered last manifest (recoverLogFile full st file) (l ++ vss.flatten) ∧
      (recoverLogFile full st file).mem = none := by
  have hst : { st with mem := none } = st := by rw [← hnone]
  have hrec := Recovered.records full hlast hr h hasc
  unfold recoverLogFile
  rw [hst]
  simp only
  cases hm : ((Log.Reader.new file true).readAll.1.foldl (recoverRecord full) st).mem with
  | none => exact ⟨hrec, hm⟩
  | some m =>
    obtain ⟨files, lm, hfiles, hmem, hl⟩ := hrec.parts
    rw [hm, Option.getD_some] at hmem
    obtain ⟨files', hfiles', hflat⟩ := writeLevel0Table_spec hmem hfiles
    refine ⟨⟨⟨files', [], hfiles', MemTable.represents_empty, ?_⟩, hrec.le_max, hrec.max_le⟩, rfl⟩
    rw [hflat, List.append_nil, hl]

/-- The log files are read one after the other. -/
theorem Recovered.logFiles (hlast : last < 2 ^ 56) {logs : List Slice} {vsss : List (List History)}
    (hr : List.Forall₂
      (fun file vss => List.Forall₂ (RecHolds last) (Log.Reader.new file true).readAll.1 vss) logs vsss)
    (h : Recovered last manifest st l) (hnone : st.mem = none)
    (hasc : Versions.Ascending (l ++ vsss.flatten.flatten)) :
    Recovered last manifest (logs.foldl (recoverLogFile full) st) (l ++ vsss.flatten.flatten) ∧
      (logs.foldl (recoverLogFile full) st).mem = none := by
  induction hr generalizing st l with
  | nil =>
    rw [List.flatten_nil, List.flatten_nil, List.append_nil]
    exact ⟨h, hnone⟩
  | @cons file vss logs vsss hfile _ ih =>
    rw [List.flatten_cons, List.flatten_append, ← List.append_assoc] at hasc ⊢
    obtain ⟨h', hnone'⟩ := h.logFile full hlast hnone hfile (List.pairwise_append.mp hasc).1
    exact ih h' hnone' hasc

/-! ## Runs -/

/-- How many operations come with an event. -/
def Event.ops : Event → ℕ
  | .arrive w => w.ops.length
  | _ => 0

/-- The callers of the event have valid batches. -/
def Event.Valid : Event → Prop
  | .arrive w => w.Valid
  | _ => True

/-- The database is the one of `a`, with room for `future` more operations. -/
structure Matches (future : ℕ) (db : DbImpl) (a : Abs) : Prop where
  queue : db.writers = a.queue
  finished : db.finished = a.finished
  valid : ∀ w ∈ a.queue, w.Valid
  ascending : Versions.Ascending a.history
  le_last : ∀ v ∈ a.history, v.seq ≤ db.last_sequence.toNat
  manifest_le : db.manifest_sequence.toNat ≤ db.last_sequence.toNat
  le_manifest : ∀ v ∈ a.base, v.seq ≤ db.manifest_sequence.toNat
  room : db.last_sequence.toNat + (a.queue.flatMap Request.ops).length + future < 2 ^ 56
  log : FileHolds db.last_sequence.toNat db.log a.log
  old_logs : List.Forall₂ (FileHolds db.last_sequence.toNat) db.old_logs a.old_logs
  mem : db.mem.Represents a.log.versions
  /-- The table that was set aside has what the old logs have. -/
  imm : (db.imm.getD .empty).Represents (a.old_logs.flatMap AbsLog.versions)
  tables : ∃ files, List.Forall₂ MemTable.Represents db.tables files ∧ a.base = files.reverse.flatten

variable {full : MemTable → Bool} {future : ℕ} {db db' : DbImpl} {a : Abs}

theorem history_eq (a : Abs) :
    a.history = a.base ++ a.old_logs.flatMap AbsLog.versions ++ a.log.versions := by
  unfold Abs.history Abs.logs
  rw [List.flatMap_append, List.flatMap_singleton, List.append_assoc]

theorem matches_new (h : future < 2 ^ 56) : Matches future new Abs.new where
  queue := rfl
  finished := rfl
  valid := by simp [Abs.new]
  ascending := List.Pairwise.nil
  le_last := fun v hv => absurd hv (List.not_mem_nil (a := v))
  manifest_le := le_rfl
  le_manifest := fun v hv => absurd hv (List.not_mem_nil (a := v))
  room := by simpa [Abs.new, new] using h
  log := fileHolds_new _
  old_logs := List.Forall₂.nil
  mem := MemTable.represents_empty
  imm := MemTable.represents_empty
  tables := ⟨[], List.Forall₂.nil, rfl⟩

theorem Matches.arrive {w : Request} (h : Matches (w.ops.length + future) db a) (hw : w.Valid) :
    Matches future { db with writers := db.writers ++ [w] } { a with queue := a.queue ++ [w] } where
  queue := by rw [h.queue]
  finished := h.finished
  valid := by
    intro x hx
    rcases List.mem_append.mp hx with hx | hx
    · exact h.valid x hx
    · rw [List.mem_singleton.mp hx]
      exact hw
  ascending := h.ascending
  le_last := h.le_last
  manifest_le := h.manifest_le
  le_manifest := h.le_manifest
  room := by
    have := h.room
    simp only [List.flatMap_append, List.flatMap_cons, List.flatMap_nil, List.append_nil, List.length_append]
    omega
  log := h.log
  old_logs := h.old_logs
  mem := h.mem
  imm := h.imm
  tables := h.tables

theorem Matches.switchMemTable (h : Matches future db a) (hstep : db.switchMemTable = some db') :
    Matches future db' { a with old_logs := a.logs, log := ⟨[], 0⟩ } := by
  unfold DbImpl.switchMemTable at hstep
  cases hi : db.imm with
  | some m =>
    rw [hi] at hstep
    cases hstep
  | none =>
    rw [hi] at hstep
    obtain rfl := Option.some.inj hstep
    have himm := h.imm
    rw [hi, Option.getD_none, represents_empty_iff] at himm
    have hlogs : a.logs.flatMap AbsLog.versions = a.log.versions := by
      rw [Abs.logs, List.flatMap_append, List.flatMap_singleton, himm, List.nil_append]
    have hhist : ({ a with old_logs := a.logs, log := ⟨[], 0⟩ } : Abs).history = a.history := by
      rw [history_eq]
      exact List.append_nil _
    exact {
      queue := h.queue
      finished := h.finished
      valid := h.valid
      ascending := by rw [hhist]; exact h.ascending
      le_last := by rw [hhist]; exact h.le_last
      manifest_le := h.manifest_le
      le_manifest := h.le_manifest
      room := h.room
      log := fileHolds_new _
      old_logs := List.rel_append h.old_logs (List.Forall₂.cons h.log List.Forall₂.nil)
      mem := MemTable.represents_empty
      imm := by
        rw [hlogs]
        exact h.mem
      tables := h.tables }

theorem Matches.compactMemTable (h : Matches future db a) (hstep : db.compactMemTable = some db') :
    Matches future db' { a with base := a.base ++ a.old_logs.flatMap AbsLog.versions, old_logs := [] } := by
  unfold DbImpl.compactMemTable at hstep
  cases hi : db.imm with
  | none =>
    rw [hi] at hstep
    cases hstep
  | some m =>
    rw [hi] at hstep
    obtain rfl := Option.some.inj hstep
    have himm := h.imm
    rw [hi, Option.getD_some] at himm
    obtain ⟨files, hfiles, hbase⟩ := h.tables
    obtain ⟨files', hfiles', hflat⟩ := writeLevel0Table_spec himm hfiles
    have hhist : ({ a with base := a.base ++ a.old_logs.flatMap AbsLog.versions, old_logs := [] } : Abs).history =
        a.history := by
      rw [history_eq, history_eq, List.flatMap_nil, List.append_nil]
    exact {
      queue := h.queue
      finished := h.finished
      valid := h.valid
      ascending := by rw [hhist]; exact h.ascending
      le_last := by rw [hhist]; exact h.le_last
      manifest_le := le_rfl
      le_manifest := by
        intro v hv
        refine h.le_last v ?_
        rw [history_eq]
        exact List.mem_append_left _ hv
      room := h.room
      log := h.log
      old_logs := List.Forall₂.nil
      mem := h.mem
      imm := MemTable.represents_empty
      tables := ⟨files', hfiles', by rw [hflat, hbase]⟩ }

/-- The front caller has nothing to write, or there is no room for it. -/
theorem Matches.refuse {room : Status} {w : Request} {rest : List Request} (h : Matches future db a)
    (hq : a.queue = w :: rest) :
    Matches future { db with writers := rest, finished := db.finished ++ [(w.id, room)] }
      { a with queue := rest, finished := a.finished ++ [(w.id, room)] } where
  queue := rfl
  finished := by rw [h.finished]
  valid := fun x hx => h.valid x (by rw [hq]; exact List.mem_cons_of_mem _ hx)
  ascending := h.ascending
  le_last := h.le_last
  manifest_le := h.manifest_le
  le_manifest := h.le_manifest
  room := by
    have := h.room
    rw [hq, List.flatMap_cons, List.length_append] at this
    simp only
    omega
  log := h.log
  old_logs := h.old_logs
  mem := h.mem
  imm := h.imm
  tables := h.tables

/-- What `a` becomes when the first callers of its queue are served. -/
def served (a : Abs) (group rest : List Request) (seq e synced : ℕ) : Abs :=
  { a with
    queue := rest
    finished := a.finished ++ group.map fun w => (w.id, .ok)
    log := ⟨a.log.groups ++ [(e, number seq (group.flatMap Request.ops))], synced⟩ }

theorem versions_served (a : Abs) (group rest : List Request) (seq e synced : ℕ) :
    (served a group rest seq e synced).log.versions =
      a.log.versions ++ number seq (group.flatMap Request.ops) := by
  unfold AbsLog.versions served
  rw [List.map_append, List.flatten_append, List.map_singleton, List.flatten_singleton]

theorem history_served (a : Abs) (group rest : List Request) (seq e synced : ℕ) :
    (served a group rest seq e synced).history = a.history ++ number seq (group.flatMap Request.ops) := by
  rw [history_eq, versions_served, history_eq, List.append_assoc _ a.log.versions]
  rfl

/-- The group is written to the log and to the table in memory. -/
theorem Matches.served {first : Request} {rest : List Request} {updates : WriteBatch} {n synced : ℕ}
    (h : Matches future db a) (hq : a.queue = first :: rest)
    (hh : updates.Holds (db.last_sequence + 1) ((first :: rest.take n).flatMap Request.ops))
    (hs : ∀ op ∈ (first :: rest.take n).flatMap Request.ops, MemTable.OpSmall op)
    (hlen : ((first :: rest.take n).flatMap Request.ops).length < 2 ^ 31)
    (hsynced : synced ≤ (db.log.writer.addRecord updates.rep).dest.length) :
    Matches future
      { db with
        writers := rest.drop n
        finished := db.finished ++
          (first :: rest.take n).map fun w => (w.id, (MemTable.insertInto updates db.mem).2)
        last_sequence := db.last_sequence + updates.count.toInt64.toUInt64
        log := ⟨db.log.writer.addRecord updates.rep, synced⟩
        mem := (MemTable.insertInto updates db.mem).1 }
      (DbImpl.served a (first :: rest.take n) (rest.drop n) (db.last_sequence.toNat + 1)
        (db.log.writer.addRecord updates.rep).dest.length synced) := by
  have hsplit : a.queue.flatMap Request.ops =
      (first :: rest.take n).flatMap Request.ops ++ (rest.drop n).flatMap Request.ops := by
    rw [hq, ← List.flatMap_append, List.cons_append, List.take_append_drop]
  have hver := versions_served a (first :: rest.take n) (rest.drop n) (db.last_sequence.toNat + 1)
    (db.log.writer.addRecord updates.rep).dest.length synced
  have hhist := history_served a (first :: rest.take n) (rest.drop n) (db.last_sequence.toNat + 1)
    (db.log.writer.addRecord updates.rep).dest.length synced
  have hgroups : (DbImpl.served a (first :: rest.take n) (rest.drop n) (db.last_sequence.toNat + 1)
      (db.log.writer.addRecord updates.rep).dest.length synced).log.groups = a.log.groups ++
      [((db.log.writer.addRecord updates.rep).dest.length,
        number (db.last_sequence.toNat + 1) ((first :: rest.take n).flatMap Request.ops))] := rfl
  generalize (first :: rest.take n).flatMap Request.ops = ops at hh hs hlen hsplit hver hhist hgroups
  have hroom := h.room
  rw [hsplit, List.length_append] at hroom
  have hseq : (db.last_sequence + 1).toNat = db.last_sequence.toNat + 1 := by
    rw [UInt64.toNat_add]
    have h1 : (1 : UInt64).toNat = 1 := rfl
    omega
  have hlast : (db.last_sequence + updates.count.toInt64.toUInt64).toNat =
      db.last_sequence.toNat + ops.length := by
    rw [UInt64.toNat_add, toNat_count hh hlen]
    omega
  have hasc : Versions.Ascending (a.history ++ number (db.last_sequence.toNat + 1) ops) := by
    refine List.pairwise_append.mpr ⟨h.ascending, ascending_number _ _, ?_⟩
    intro v hv w hw
    have h1 := h.le_last v hv
    have h2 := (seq_of_mem_number hw).1
    omega
  have hmemasc := hasc
  rw [history_eq, List.append_assoc] at hmemasc
  obtain ⟨hok, hins⟩ := h.mem.insertInto hh hs
    (by rw [hseq]; exact (List.pairwise_append.mp hmemasc).2.1) (by omega)
  have hrec : RecHolds (db.last_sequence.toNat + ops.length) updates.rep
      (number (db.last_sequence.toNat + 1) ops) :=
    ⟨db.last_sequence + 1, ops, hh, hs, by rw [hseq], hlen, by omega, by omega⟩
  have hle : db.last_sequence.toNat ≤ db.last_sequence.toNat + ops.length := Nat.le_add_right _ _
  have hmono : db.last_sequence.toNat ≤ (db.last_sequence + updates.count.toInt64.toUInt64).toNat := by
    rw [hlast]
    exact hle
  exact {
    queue := rfl
    finished := by
      rw [hok, h.finished]
      rfl
    valid := fun x hx => h.valid x (by rw [hq]; exact List.mem_cons_of_mem _ (List.mem_of_mem_drop hx))
    ascending := by rw [hhist]; exact hasc
    le_last := by
      rw [hhist]
      intro v hv
      rcases List.mem_append.mp hv with hv | hv
      · exact (h.le_last v hv).trans hmono
      · have := (seq_of_mem_number hv).2
        rw [hlast]
        omega
    manifest_le := h.manifest_le.trans hmono
    le_manifest := h.le_manifest
    room := by
      simp only [DbImpl.served]
      omega
    log := by
      refine ⟨?_, rfl, hsynced⟩
      rw [hlast, hgroups]
      exact (h.log.1.mono hle).addRecord hrec
    old_logs := h.old_logs.imp fun _ _ => FileHolds.mono hmono
    mem := by
      rw [hver, ← hseq]
      exact hins
    imm := h.imm
    tables := h.tables }

theorem Matches.commit {room : Status} (h : Matches future db a) (hstep : db.commit room = some db') :
    ∃ a', Abs.Step a (.commit room) a' ∧ Matches future db' a' := by
  unfold DbImpl.commit at hstep
  rw [h.queue] at hstep
  cases hq : a.queue with
  | nil =>
    rw [hq] at hstep
    cases hstep
  | cons first rest =>
    rw [hq] at hstep
    have hvalid : ∀ w ∈ first :: rest, w.Valid := by
      rw [← hq]
      exact h.valid
    cases hb : first.batch with
    | none =>
      simp only [hb] at hstep
      obtain rfl := Option.some.inj hstep
      exact ⟨_, .refuse a room first rest hq (Or.inl hb), h.refuse hq⟩
    | some batch =>
      simp only [hb] at hstep
      by_cases hroom : room = .ok
      · subst hroom
        rw [if_pos rfl] at hstep
        obtain rfl := Option.some.inj hstep
        obtain ⟨seq, ops, rfl, hh, hs, hlen, hsync⟩ := buildBatchGroup_spec hb hvalid
        have hend := h.log.1.lt_addRecord
          ((buildBatchGroup first batch rest).1.setSequence (db.last_sequence + 1)).rep
        have hgrow := (Log.Writer.length_lt_addRecordLoop true
          ((buildBatchGroup first batch rest).1.setSequence (db.last_sequence + 1)).rep db.log.writer).le
        refine ⟨_, .commit a _ _ _ _ _ ?_ (List.cons_ne_nil _ _) ?_ hend ?_ ?_,
          h.served hq (hh.setSequence (db.last_sequence + 1)) hs hlen ?_⟩
        · rw [hq, List.cons_append, List.take_append_drop]
        · intro v hv
          exact Nat.lt_succ_of_le (h.le_last v hv)
        · rw [← h.log.2.1]
          split_ifs
          · exact h.log.2.2.trans hgrow
          · exact le_rfl
        · intro w hw hws
          rw [if_pos (hsync w hw hws)]
        · split_ifs
          · exact le_rfl
          · exact h.log.2.2.trans hgrow
      · rw [if_neg hroom] at hstep
        obtain rfl := Option.some.inj hstep
        exact ⟨_, .refuse a room first rest hq (Or.inr hroom), h.refuse hq⟩

theorem Matches.crash {rests : List Slice} (h : Matches future db a) (hstep : db.crash full rests = some db') :
    ∃ a', Abs.Step a (.crash full rests) a' ∧ Matches future db' a' := by
  unfold DbImpl.crash at hstep
  by_cases hrests : List.Forall₂ LogFile.Leaves (db.old_logs ++ [db.log]) rests
  · rw [if_pos hrests] at hstep
    simp only at hstep
    obtain rfl := Option.some.inj hstep
    have hlogs : List.Forall₂ (FileHolds db.last_sequence.toNat) (db.old_logs ++ [db.log]) a.logs :=
      List.rel_append h.old_logs (List.Forall₂.cons h.log List.Forall₂.nil)
    obtain ⟨hsynced, hsub, vsss, hvsss, hflat⟩ := readAll_rests hlogs hrests
    refine ⟨_, .crash a full rests hsynced, ?_⟩
    obtain ⟨files, hfiles, hbase⟩ := h.tables
    have hlast : db.last_sequence.toNat < 2 ^ 56 := by
      have := h.room
      omega
    have hasc : Versions.Ascending (a.base ++ vsss.flatten.flatten) := by
      rw [hflat]
      exact h.ascending.sublist (List.Sublist.append_left hsub _)
    have hstart : Recovered db.last_sequence.toNat db.manifest_sequence.toNat ⟨db.tables, none, 0⟩ a.base :=
      ⟨⟨files, [], hfiles, MemTable.represents_empty, by rw [hbase]; exact (List.append_nil _).symm⟩,
        fun v hv => Or.inl (h.le_manifest v hv), Nat.zero_le _⟩
    obtain ⟨hrec, hnone⟩ := Recovered.logFiles full hlast hvsss hstart rfl hasc
    generalize rests.foldl (recoverLogFile full) ⟨db.tables, none, 0⟩ = r at hrec hnone ⊢
    obtain ⟨files', lm, hfiles', hmem, hl⟩ := hrec.parts
    rw [hnone, Option.getD_none, represents_empty_iff] at hmem
    rw [hmem, List.append_nil, hflat] at hl
    obtain ⟨M, hM, hle, hge⟩ : ∃ M : UInt64,
        M = (if db.manifest_sequence < r.max_sequence then r.max_sequence else db.manifest_sequence) ∧
        M.toNat ≤ db.last_sequence.toNat ∧ ∀ v ∈ files'.reverse.flatten, v.seq ≤ M.toNat := by
      refine ⟨_, rfl, ?_⟩
      rw [← hl, ← hflat]
      have h1 := h.manifest_le
      have h2 := hrec.max_le
      split_ifs with hlt
      · have hlt' := UInt64.lt_iff_toNat_lt.mp hlt
        exact ⟨h2, fun v hv => (hrec.le_max v hv).elim (fun h => by omega) id⟩
      · have hlt' := UInt64.le_iff_toNat_le.mp (UInt64.not_lt.mp hlt)
        exact ⟨h1, fun v hv => (hrec.le_max v hv).elim id (fun h => by omega)⟩
    rw [← hM, hl]
    rw [hflat, hl] at hasc
    have hhist : (⟨[], [], files'.reverse.flatten, [], ⟨[], 0⟩⟩ : Abs).history = files'.reverse.flatten :=
      List.append_nil _
    exact {
      queue := rfl
      finished := rfl
      valid := fun w hw => absurd hw List.not_mem_nil
      ascending := by rw [hhist]; exact hasc
      le_last := by rw [hhist]; exact hge
      manifest_le := le_rfl
      le_manifest := hge
      room := by
        have := h.room
        simp only [List.flatMap_nil, List.length_nil]
        omega
      log := fileHolds_new _
      old_logs := List.Forall₂.nil
      mem := MemTable.represents_empty
      imm := MemTable.represents_empty
      tables := ⟨files', hfiles', rfl⟩ }
  · rw [if_neg hrests] at hstep
    cases hstep

/-- Every event of the database is a step of its purpose. -/
theorem Matches.step {e : Event} (h : Matches (e.ops + future) db a) (hvalid : e.Valid)
    (hstep : db.step e = some db') : ∃ a', Abs.Step a e a' ∧ Matches future db' a' := by
  cases e with
  | arrive w =>
    obtain rfl := Option.some.inj hstep
    exact ⟨_, .arrive a w, h.arrive hvalid⟩
  | commit room =>
    simp only [Event.ops, Nat.zero_add] at h
    exact h.commit hstep
  | switchMemTable =>
    simp only [Event.ops, Nat.zero_add] at h
    exact ⟨_, .switch a, h.switchMemTable hstep⟩
  | compactMemTable =>
    simp only [Event.ops, Nat.zero_add] at h
    exact ⟨_, .compact a, h.compactMemTable hstep⟩
  | crash full rests =>
    simp only [Event.ops, Nat.zero_add] at h
    exact h.crash hstep

theorem Matches.run : ∀ {es : List Event} {db : DbImpl} {a : Abs},
    Matches ((es.map Event.ops).sum + future) db a → (∀ e ∈ es, e.Valid) → db.run es = some db' →
    ∃ a', Abs.Run a es a' ∧ Matches future db' a'
  | [], _, a, h, _, hrun => by
    obtain rfl := Option.some.inj hrun
    rw [List.map_nil, List.sum_nil, Nat.zero_add] at h
    exact ⟨a, .nil a, h⟩
  | e :: es, db, a, h, hvalid, hrun => by
    rw [List.map_cons, List.sum_cons, Nat.add_assoc] at h
    obtain ⟨db₁, hstep, hrun⟩ := Option.bind_eq_some_iff.mp hrun
    obtain ⟨a₁, ha₁, h₁⟩ := h.step (hvalid e List.mem_cons_self) hstep
    obtain ⟨a₂, ha₂, h₂⟩ := h₁.run (fun e he => hvalid e (List.mem_cons_of_mem _ he)) hrun
    exact ⟨a₂, .cons ha₁ ha₂, h₂⟩

/-! ## Lookups -/

/-- How `Get` reports a value, or that there is none. -/
def report : Option Slice → Except Status Slice
  | some value => .ok value
  | none => .error (.notFound "")

/-- The tables that a lookup asks hold the history, the newest versions first. -/
theorem Matches.sources (h : Matches future db a) :
    ∃ ls, List.Forall₂ MemTable.Represents (db.mem :: db.imm.toList ++ db.tables) ls ∧
      ls.reverse.flatten = a.history := by
  obtain ⟨files, hfiles, hbase⟩ := h.tables
  have himm := h.imm
  rw [history_eq, hbase]
  cases hi : db.imm with
  | none =>
    rw [hi, Option.getD_none, represents_empty_iff] at himm
    refine ⟨a.log.versions :: files, List.Forall₂.cons h.mem hfiles, ?_⟩
    rw [himm, List.reverse_cons, List.flatten_append, List.flatten_singleton, List.append_nil]
  | some m =>
    rw [hi, Option.getD_some] at himm
    refine ⟨a.log.versions :: a.old_logs.flatMap AbsLog.versions :: files,
      List.Forall₂.cons h.mem (List.Forall₂.cons himm hfiles), ?_⟩
    rw [List.reverse_cons, List.reverse_cons, List.flatten_append, List.flatten_append,
      List.flatten_singleton, List.flatten_singleton]

/-- A lookup at any number sees the history up to that number. -/
theorem Matches.get (h : Matches future db a) {k : Slice} (hk : k.length + 8 < 2 ^ 32) {s : UInt64}
    (hs : s ≤ kMaxSequenceNumber) : db.get k s = report (Versions.read a.history k s.toNat) := by
  obtain ⟨ls, hls, hflat⟩ := h.sources
  have hasc := h.ascending
  rw [← hflat] at hasc
  rw [DbImpl.get, lookup_eq hls hasc hk hs, hflat, Versions.read]
  cases newest a.history k s.toNat with
  | none => rfl
  | some v =>
    rw [Option.map_some, Option.getD_some, Option.bind_some, MemTable.answer]
    cases v.val <;> rfl

/-- The latest lookup is the one in the ordered map to which the history was applied. -/
theorem Matches.get_last (h : Matches future db a) {k : Slice} (hk : k.length + 8 < 2 ^ 32) :
    db.get k db.last_sequence =
      report (Store.applyBatch (∅ : Std.ExtTreeMap Slice Slice) (a.history.map toOp))[k]? := by
  have hs : db.last_sequence ≤ kMaxSequenceNumber := by
    rw [UInt64.le_iff_toNat_le, show kMaxSequenceNumber.toNat = 2 ^ 56 - 1 from rfl]
    have := h.room
    omega
  have hall : a.history.filter (fun v => v.seq ≤ db.last_sequence.toNat) = a.history := by
    rw [List.filter_eq_self]
    intro v hv
    exact decide_eq_true (h.le_last v hv)
  rw [h.get hk hs, read_of_ascending h.ascending, hall, getElem?_applyBatch]

/-- **Over any run**, with crashes in it, the queue and the results are those of the purpose, a lookup at
any number sees the history up to there, and the latest one sees the map that the history makes. -/
theorem run_spec {es : List Event} (hvalid : ∀ e ∈ es, e.Valid) (hcount : (es.map Event.ops).sum < 2 ^ 56)
    (hrun : new.run es = some db) :
    ∃ a, Abs.Run Abs.new es a ∧ db.writers = a.queue ∧ db.finished = a.finished ∧
      ∀ k : Slice, k.length + 8 < 2 ^ 32 →
        (∀ s ≤ kMaxSequenceNumber, db.get k s = report (Versions.read a.history k s.toNat)) ∧
        db.get k db.last_sequence =
          report (Store.applyBatch (∅ : Std.ExtTreeMap Slice Slice) (a.history.map toOp))[k]? := by
  have hnew : Matches ((es.map Event.ops).sum + 0) new Abs.new := matches_new hcount
  obtain ⟨a, ha, h⟩ := hnew.run hvalid hrun
  exact ⟨a, ha, h.queue, h.finished, fun k hk => ⟨fun s hs => h.get hk hs, h.get_last hk⟩⟩

/-- A commit whose table became a file, and one that the crash takes back. -/
theorem run_spec_crash : ∃ es db, es =
    [.arrive ⟨0, some (WriteBatch.clear.put [1] [2]), false⟩, .commit .ok, .switchMemTable, .compactMemTable,
      .arrive ⟨1, some (WriteBatch.clear.delete [1]), false⟩, .commit .ok, .crash (fun _ => false) [[]]] ∧
    new.run es = some db ∧
    ∃ a, Abs.Run Abs.new es a ∧ db.writers = a.queue ∧ db.finished = a.finished ∧
      ∀ k : Slice, k.length + 8 < 2 ^ 32 →
        (∀ s ≤ kMaxSequenceNumber, db.get k s = report (Versions.read a.history k s.toNat)) ∧
        db.get k db.last_sequence =
          report (Store.applyBatch (∅ : Std.ExtTreeMap Slice Slice) (a.history.map toOp))[k]? := by
  have hput : (⟨0, some (WriteBatch.clear.put [1] [2]), false⟩ : Request).Valid := by
    rintro b hb
    obtain rfl := Option.some.inj hb
    exact ⟨[.put [1] [2]], .put [1] [2] .clear (by decide) (by decide), by decide, by decide⟩
  have hdelete : (⟨1, some (WriteBatch.clear.delete [1]), false⟩ : Request).Valid := by
    rintro b hb
    obtain rfl := Option.some.inj hb
    exact ⟨[.delete [1]], .delete [1] .clear (by decide), by decide, by decide⟩
  have hputOps : (WriteBatch.clear.put [1] [2]).iterate.1 = [.put [1] [2]] :=
    congrArg Prod.fst ((WriteBatch.holds_clear.put [1] [2]).iterate (by decide))
  have hdeleteOps : (WriteBatch.clear.delete [1]).iterate.1 = [.delete [1]] :=
    congrArg Prod.fst ((WriteBatch.holds_clear.delete [1]).iterate (by decide))
  obtain ⟨es, hes⟩ : ∃ es : List Event, es =
    [.arrive ⟨0, some (WriteBatch.clear.put [1] [2]), false⟩, .commit .ok, .switchMemTable, .compactMemTable,
      .arrive ⟨1, some (WriteBatch.clear.delete [1]), false⟩, .commit .ok, .crash (fun _ => false) [[]]] := ⟨_, rfl⟩
  obtain ⟨db, hdb⟩ : ∃ db, new.run es = some db := by
    rw [hes]
    exact ⟨_, rfl⟩
  refine ⟨es, db, hes, hdb, run_spec ?_ ?_ hdb⟩
  · rw [hes]
    simp [Event.Valid, hput, hdelete]
  · rw [hes]
    simp [Event.ops, Request.ops, hputOps, hdeleteOps]

theorem run_append {es es' : List Event} (db : DbImpl) :
    db.run (es ++ es') = (db.run es).bind fun db => db.run es' := by
  induction es generalizing db with
  | nil => rfl
  | cons e es ih =>
    rw [List.cons_append, run, run, Option.bind_assoc]
    exact congrArg _ (funext ih)

/-- **What was written with a sync stays**: once a commit has served a caller who asked for it, the operations
of that caller are in the history after any further run, whatever its crashes leave of the logs. -/
theorem synced_write_survives {es es' : List Event} {db₁ db₂ db₃ : DbImpl} {served : List Request}
    {w : Request} (hvalid : ∀ e ∈ es ++ .commit .ok :: es', e.Valid)
    (hcount : ((es ++ .commit .ok :: es').map Event.ops).sum < 2 ^ 56)
    (h₁ : new.run es = some db₁)
    (h₂ : db₁.step (.commit .ok) = some db₂) (hserved : db₁.writers = served ++ db₂.writers) (hw : w ∈ served)
    (hsync : w.sync = true) (h₃ : db₂.run es' = some db₃) :
    ∃ a s, Abs.Run Abs.new (es ++ .commit .ok :: es') a ∧ (∀ v ∈ number s w.ops, v ∈ a.history) ∧
      ∀ k : Slice, k.length + 8 < 2 ^ 32 → ∀ n ≤ kMaxSequenceNumber,
        db₃.get k n = report (Versions.read a.history k n.toNat) := by
  rw [List.map_append, List.sum_append, List.map_cons, List.sum_cons] at hcount
  have hvalid₁ : ∀ e ∈ es, e.Valid := fun e he => hvalid e (List.mem_append_left _ he)
  have hvalid₃ : ∀ e ∈ es', e.Valid := fun e he =>
    hvalid e (List.mem_append_right _ (List.mem_cons_of_mem _ he))
  obtain ⟨a₁, ha₁, hm₁⟩ := (matches_new hcount).run hvalid₁ h₁
  obtain ⟨a₂, ha₂, hm₂⟩ := hm₁.step trivial h₂
  have hm₂ : Matches ((es'.map Event.ops).sum + 0) db₂ a₂ := hm₂
  obtain ⟨a₃, ha₃, hm₃⟩ := hm₂.run hvalid₃ h₃
  obtain ⟨s, hs⟩ := ha₂.durable (by rw [← hm₁.queue, ← hm₂.queue]; exact hserved) hw hsync
  exact ⟨a₃, s, ha₁.append (.cons ha₂ ha₃), fun v hv => ((hs v hv).run ha₃).mem_history,
    fun k hk n hn => hm₃.get hk hn⟩

/-- A crash right after a write with a sync. -/
theorem synced_write_survives_crash : ∃ es db₁ db₂ db₃, ∃ w : Request,
    w = ⟨0, some (WriteBatch.clear.put [1] [2]), true⟩ ∧ es = [.arrive w] ∧ new.run es = some db₁ ∧
    db₁.step (.commit .ok) = some db₂ ∧
    db₂.run [.crash (fun _ => false) [db₂.log.writer.dest]] = some db₃ ∧
    ∃ a s, Abs.Run Abs.new (es ++ [.commit .ok, .crash (fun _ => false) [db₂.log.writer.dest]]) a ∧
      (∀ v ∈ number s w.ops, v ∈ a.history) ∧
      ∀ k : Slice, k.length + 8 < 2 ^ 32 → ∀ n ≤ kMaxSequenceNumber,
        db₃.get k n = report (Versions.read a.history k n.toNat) := by
  obtain ⟨w, hw⟩ : ∃ w : Request, w = ⟨0, some (WriteBatch.clear.put [1] [2]), true⟩ := ⟨_, rfl⟩
  have hputOps : (WriteBatch.clear.put [1] [2]).iterate.1 = [.put [1] [2]] :=
    congrArg Prod.fst ((WriteBatch.holds_clear.put [1] [2]).iterate (by decide))
  have hvalid : w.Valid := by
    rw [hw]
    rintro b hb
    obtain rfl := Option.some.inj hb
    exact ⟨[.put [1] [2]], .put [1] [2] .clear (by decide) (by decide), by decide, by decide⟩
  have hops : w.ops = [.put [1] [2]] := by
    rw [hw]
    exact hputOps
  obtain ⟨db₁, h₁⟩ : ∃ db₁, db₁ = { new with writers := [w] } := ⟨_, rfl⟩
  obtain ⟨db₂, h₂⟩ : ∃ db₂, db₁.step (.commit .ok) = some db₂ := by
    rw [h₁, hw]
    exact ⟨_, rfl⟩
  have hdb₂ : db₂.old_logs = [] ∧ db₂.writers = [] ∧ db₂.log.synced = db₂.log.writer.dest.length := by
    rw [h₁, hw] at h₂
    rw [← Option.some.inj h₂]
    exact ⟨rfl, rfl, rfl⟩
  obtain ⟨db₃, h₃⟩ : ∃ db₃, db₂.run [.crash (fun _ => false) [db₂.log.writer.dest]] = some db₃ := by
    have hleaves : List.Forall₂ LogFile.Leaves (db₂.old_logs ++ [db₂.log]) [db₂.log.writer.dest] := by
      rw [hdb₂.1]
      exact List.Forall₂.cons ⟨List.prefix_refl _, hdb₂.2.2.le⟩ List.Forall₂.nil
    rw [run, DbImpl.step, DbImpl.crash, if_pos hleaves]
    exact ⟨_, rfl⟩
  have harrive : new.run [.arrive w] = some db₁ := by
    rw [h₁]
    rfl
  have hserved : db₁.writers = [w] ++ db₂.writers := by
    rw [hdb₂.2.1, h₁]
    rfl
  refine ⟨[.arrive w], db₁, db₂, db₃, w, hw, rfl, harrive, h₂, h₃,
    synced_write_survives ?_ ?_ harrive h₂ hserved List.mem_cons_self ?_ h₃⟩
  · simp [Event.Valid, hvalid]
  · simp [Event.ops, hops]
  · rw [hw]

end DbImpl

end Leveldb
