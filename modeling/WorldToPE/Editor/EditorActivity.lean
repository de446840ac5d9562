import WorldToPE.Data.Level
import Mathlib.Data.List.GetD

/-!
# WorldToPE.Editor.EditorActivity — loading and saving while the level is edited

The activities share one static `level`.  `onStart` starts a thread that reads `level.dat` and posts the
result to the UI thread; an edit changes the static level and starts a thread that writes it
(`EditorActivity.save`).  `loadLock` makes each access to the file atomic, but not the way from the file
to the static level: a level that was read before an edit can be installed after it.

The model is a step function over the file, the static level, the threads that have not run yet and the
messages of the UI thread, in any order of events.  Each copy of the level carries the numbers of the
edits it went through.

* `step_replays`, `runs_replays`: a copy is the initial level with the edits it carries.
* `step_current`, `runs_current`: without stale messages, the static level has every edit.
-/

namespace WorldToPE.EditorActivity

variable {L : Type}

/-! ## Events -/

/-- A copy of the level, with the numbers of the edits that it went through. -/
structure Copy (L : Type) where
  value : L
  edits : List ℕ

/-- The state of all threads. -/
structure State (L : Type) where
  levelDat : Copy L
  /-- `null` until the first message -/
  level : Option (Copy L)
  /-- threads of `loadLevelData` and of `save` that have not entered the lock -/
  loads : ℕ
  saves : ℕ
  /-- levels posted with `runOnUiThread`, the oldest first -/
  posted : List (Copy L)
  /-- the edits made so far -/
  history : List (L → L)

inductive Event (L : Type)
  | onStart
  | edit (f : L → L)
  | load
  | save
  | message

/-- One event, if it can happen. -/
def step (s : State L) : Event L → Option (State L)
  | .onStart => some { s with loads := s.loads + 1 }
  | .edit f =>
    match s.level with
    | none => none
    | some level =>
      some { s with
        level := some ⟨f level.value, level.edits ++ [s.history.length]⟩
        saves := s.saves + 1
        history := s.history ++ [f] }
  | .load =>
    match s.loads with
    | 0 => none
    | n + 1 => some { s with loads := n, posted := s.posted ++ [s.levelDat] }
  | .save =>
    match s.saves with
    | 0 => none
    | n + 1 =>
      -- the static level of this moment is written; a `null` is dereferenced and nothing is written
      match s.level with
      | none => some { s with saves := n }
      | some level => some { s with saves := n, levelDat := level }
  | .message =>
    match s.posted with
    | [] => none
    | level :: posted => some { s with level := some level, posted := posted }

/-- The states that a run reaches whose events all meet the condition `P`. -/
inductive Runs (P : State L → Event L → Prop) (s : State L) : State L → Prop
  | refl : Runs P s s
  | tail {t u : State L} {ev : Event L} (head : Runs P s t) (cond : P t ev) (h : step t ev = some u) :
      Runs P s u

/-- No edit has been made and nothing is under way. -/
structure Initial (s : State L) : Prop where
  levelDat : s.levelDat.edits = []
  level : ∀ c, s.level = some c → c.edits = []
  loads : s.loads = 0
  saves : s.saves = 0
  posted : s.posted = []
  history : s.history = []

/-- No task and no message is pending. -/
def Quiet (s : State L) : Prop := s.loads = 0 ∧ s.saves = 0 ∧ s.posted = []

/-- The file has the effect of every edit. -/
def Kept (s : State L) : Prop := ∀ n < s.history.length, n ∈ s.levelDat.edits

/-- The UI thread does not install a level that lacks an edit of the one it replaces. -/
def NotStale (s : State L) : Event L → Prop
  | .message => ∀ l ls c, s.posted = l :: ls → s.level = some c → ∀ n ∈ c.edits, n ∈ l.edits
  | _ => True

/-! ## One event -/

/-- What an event does. -/
theorem step_cases {s t : State L} {ev : Event L} (h : step s ev = some t) :
    (ev = .onStart ∧ t = { s with loads := s.loads + 1 }) ∨
    (∃ f c, ev = .edit f ∧ s.level = some c ∧
      t = { s with
        level := some ⟨f c.value, c.edits ++ [s.history.length]⟩
        saves := s.saves + 1
        history := s.history ++ [f] }) ∨
    (∃ n, ev = .load ∧ s.loads = n + 1 ∧
      t = { s with loads := n, posted := s.posted ++ [s.levelDat] }) ∨
    (∃ n, ev = .save ∧ s.saves = n + 1 ∧
      ((s.level = none ∧ t = { s with saves := n }) ∨
        ∃ c, s.level = some c ∧ t = { s with saves := n, levelDat := c })) ∨
    (∃ c cs, ev = .message ∧ s.posted = c :: cs ∧ t = { s with level := some c, posted := cs }) := by
  cases ev with
  | onStart => exact .inl ⟨rfl, (Option.some.inj h).symm⟩
  | edit f =>
    cases hl : s.level with
    | none => simp [step, hl] at h
    | some c =>
      simp only [step, hl, Option.some.injEq] at h
      exact .inr (.inl ⟨f, c, rfl, rfl, h.symm⟩)
  | load =>
    cases hl : s.loads with
    | zero => simp [step, hl] at h
    | succ n =>
      simp only [step, hl, Option.some.injEq] at h
      exact .inr (.inr (.inl ⟨n, rfl, rfl, h.symm⟩))
  | save =>
    cases hs : s.saves with
    | zero => simp [step, hs] at h
    | succ n =>
      refine .inr (.inr (.inr (.inl ⟨n, rfl, rfl, ?_⟩)))
      cases hl : s.level with
      | none =>
        simp only [step, hs, hl, Option.some.injEq] at h
        exact .inl ⟨rfl, h.symm⟩
      | some c =>
        simp only [step, hs, hl, Option.some.injEq] at h
        exact .inr ⟨c, rfl, h.symm⟩
  | message =>
    cases hp : s.posted with
    | nil => simp [step, hp] at h
    | cons c cs =>
      simp only [step, hp, Option.some.injEq] at h
      exact .inr (.inr (.inr (.inr ⟨c, cs, rfl, rfl, h.symm⟩)))

/-! ## The edits of a copy -/

/-- The value of a copy is one of the initial levels after the edits that it carries. -/
def Replays (bases : List L) (history : List (L → L)) (c : Copy L) : Prop :=
  (∀ n ∈ c.edits, n < history.length) ∧
    ∃ b ∈ bases, c.value = c.edits.foldl (fun v n => history.getD n id v) b

theorem Replays.mono {bases : List L} {history : List (L → L)} {c : Copy L}
    (h : Replays bases history c) (f : L → L) : Replays bases (history ++ [f]) c := by
  obtain ⟨hlt, b, hb, hv⟩ := h
  refine ⟨fun n hn => ?_, b, hb, ?_⟩
  · have := hlt n hn
    simp only [List.length_append, List.length_singleton]
    omega
  · rw [hv]
    apply List.foldl_ext
    intro v n hn
    rw [List.getD_append _ _ _ _ (hlt n hn)]

theorem Replays.edit {bases : List L} {history : List (L → L)} {c : Copy L}
    (h : Replays bases history c) (f : L → L) :
    Replays bases (history ++ [f]) ⟨f c.value, c.edits ++ [history.length]⟩ := by
  obtain ⟨hlt, b, hb, hv⟩ := h.mono f
  refine ⟨fun n hn => ?_, b, hb, ?_⟩
  · rcases List.mem_append.mp hn with hn | hn
    · exact hlt n hn
    · obtain rfl := List.mem_singleton.mp hn
      simp
  · rw [List.foldl_append, ← hv]
    simp

/-- Every copy of the state replays its edits. -/
structure AllReplay (bases : List L) (s : State L) : Prop where
  levelDat : Replays bases s.history s.levelDat
  level : ∀ c, s.level = some c → Replays bases s.history c
  posted : ∀ c ∈ s.posted, Replays bases s.history c

/-- **Step lemma.** -/
theorem step_replays {bases : List L} {s t : State L} {ev : Event L} (hs : AllReplay bases s)
    (h : step s ev = some t) : AllReplay bases t := by
  rcases step_cases h with ⟨-, rfl⟩ | ⟨f, c, -, hc, rfl⟩ | ⟨n, -, -, rfl⟩ |
    ⟨n, -, -, ⟨-, rfl⟩ | ⟨c, hc, rfl⟩⟩ | ⟨c, cs, -, hp, rfl⟩
  · exact ⟨hs.levelDat, hs.level, hs.posted⟩
  · refine ⟨hs.levelDat.mono f, ?_, fun c' hc' => (hs.posted c' hc').mono f⟩
    rintro c' hc'
    obtain rfl := Option.some.inj hc'
    exact (hs.level c hc).edit f
  · refine ⟨hs.levelDat, hs.level, fun c hc => ?_⟩
    rcases List.mem_append.mp hc with hc | hc
    · exact hs.posted c hc
    · obtain rfl := List.mem_singleton.mp hc
      exact hs.levelDat
  · exact ⟨hs.levelDat, hs.level, hs.posted⟩
  · exact ⟨hs.level c hc, hs.level, hs.posted⟩
  · have hmem : ∀ c' ∈ c :: cs, Replays bases s.history c' := by
      rw [← hp]
      exact hs.posted
    refine ⟨hs.levelDat, ?_, fun c' hc' => hmem c' (List.mem_cons_of_mem _ hc')⟩
    rintro c' hc'
    obtain rfl := Option.some.inj hc'
    exact hmem c List.mem_cons_self

/-- **In every run**, the file and the static level are initial levels after the edits that they
carry. -/
theorem runs_replays {P : State L → Event L → Prop} {s t : State L} (h0 : Initial s) (h : Runs P s t) :
    AllReplay (s.levelDat.value :: (s.level.map Copy.value).toList) t := by
  induction h with
  | refl =>
    refine ⟨⟨by simp [h0.levelDat], _, List.mem_cons_self, by simp [h0.levelDat]⟩, ?_, ?_⟩
    · intro c hc
      refine ⟨by simp [h0.level c hc], c.value, by simp [hc], by simp [h0.level c hc]⟩
    · simp [h0.posted]
  | tail head cond h ih => exact step_replays ih h

/-! ## Without stale messages -/

/-- The static level has every edit, and the file has them all or is about to be written. -/
structure Current (s : State L) : Prop where
  level : ∀ n < s.history.length, ∃ c, s.level = some c ∧ n ∈ c.edits
  levelDat : Kept s ∨ 0 < s.saves

/-- **Step lemma.** -/
theorem step_current {s t : State L} {ev : Event L} (hs : Current s) (hev : NotStale s ev)
    (h : step s ev = some t) : Current t := by
  rcases step_cases h with ⟨-, rfl⟩ | ⟨f, c, -, hc, rfl⟩ | ⟨n, -, -, rfl⟩ |
    ⟨n, -, hn, ⟨hnone, rfl⟩ | ⟨c, hc, rfl⟩⟩ | ⟨c, cs, rfl, hp, rfl⟩
  · exact ⟨hs.level, hs.levelDat⟩
  · refine ⟨fun n hn => ⟨_, rfl, ?_⟩, .inr (Nat.succ_pos _)⟩
    simp only [List.length_append, List.length_singleton] at hn
    rw [List.mem_append, List.mem_singleton]
    by_cases hlt : n < s.history.length
    · obtain ⟨c', hc', hmem⟩ := hs.level n hlt
      rw [hc] at hc'
      obtain rfl := Option.some.inj hc'
      exact .inl hmem
    · exact .inr (by omega)
  · exact ⟨hs.level, hs.levelDat⟩
  · -- without a static level there has been no edit
    refine ⟨hs.level, .inl fun m hm => ?_⟩
    obtain ⟨c, hc, -⟩ := hs.level m hm
    rw [hnone] at hc
    cases hc
  · refine ⟨hs.level, .inl fun m hm => ?_⟩
    obtain ⟨c', hc', hmem⟩ := hs.level m hm
    rw [hc] at hc'
    obtain rfl := Option.some.inj hc'
    exact hmem
  · refine ⟨fun m hm => ?_, hs.levelDat⟩
    obtain ⟨c', hc', hmem⟩ := hs.level m hm
    exact ⟨c, rfl, hev c cs c' hp hc' m hmem⟩

theorem runs_current {s t : State L} (h0 : Initial s) (h : Runs NotStale s t) : Current t := by
  induction h with
  | refl =>
    refine ⟨fun n hn => ?_, .inl fun n hn => ?_⟩
    all_goals
      rw [h0.history] at hn
      cases hn
  | tail head cond h ih => exact step_current ih cond h

/-- **No edit is lost** in a run without stale messages: once nothing is pending, `level.dat` carries
every edit, and its value is an initial level with the edits that it carries. -/
theorem edits_kept (s t : State L) (h0 : Initial s) (h : Runs NotStale s t) (hq : Quiet t) :
    Kept t ∧
      Replays (s.levelDat.value :: (s.level.map Copy.value).toList) t.history t.levelDat := by
  refine ⟨?_, (runs_replays h0 h).levelDat⟩
  rcases (runs_current h0 h).levelDat with hk | hs
  · exact hk
  · rw [hq.2.1] at hs
    cases hs

/-! ## A stale message -/

open LevelDataConverter in
/-- An activity with the level of the file in memory. -/
def opened : State Level := ⟨⟨newLevel, []⟩, some ⟨newLevel, []⟩, 0, 0, [], []⟩

theorem initial_opened : Initial opened := by
  refine ⟨rfl, ?_, rfl, rfl, rfl, rfl⟩
  rintro c hc
  obtain rfl := Option.some.inj hc
  rfl

/-- One of the edits of `WorldInfoActivity`. -/
def setTimeToNight (level : Level) : Level := { level with time := level.time / 19200 * 19200 + 9600 }

/-- A run of the given events, all of which can happen. -/
theorem runs_of_events {P : State L → Event L → Prop} {s : State L} (hP : ∀ t ev, P t ev) :
    ∀ {evs : List (Event L)} {t u : State L}, Runs P s t → evs.foldlM step t = some u → Runs P s u
  | [], _, _, h, hu => by
    obtain rfl := Option.some.inj hu
    exact h
  | ev :: evs, t, u, h, hu => by
    rw [List.foldlM_cons] at hu
    obtain ⟨t', ht', hu⟩ := Option.bind_eq_some_iff.mp hu
    exact runs_of_events hP (h.tail (hP t ev) ht') hu

/-- The level is read, edited, and the level that was read is installed and saved: the edit is lost. -/
theorem edit_lost_to_stale_load : Initial opened ∧
    ∃ t, Runs (fun _ _ => True) opened t ∧ Quiet t ∧ ¬ Kept t := by
  refine ⟨initial_opened, ?_⟩
  obtain ⟨t, ht⟩ : ∃ t, [Event.onStart, .load, .edit setTimeToNight, .message, .save].foldlM step opened =
      some t := ⟨_, rfl⟩
  have hrun : Runs (fun _ _ => True) opened t := runs_of_events (fun _ _ => trivial) .refl ht
  obtain rfl := Option.some.inj ht
  refine ⟨_, hrun, ⟨rfl, rfl, rfl⟩, ?_⟩
  intro hk
  exact absurd (hk 0 (by decide)) (by decide)

open LevelDataConverter in
/-- The level is edited and saved before it is read again. -/
theorem edits_kept_in_order :
    Initial opened ∧ ∃ t, Runs NotStale opened t ∧ Quiet t ∧ t.history.length = 1 ∧ Kept t := by
  let c : Copy Level := ⟨setTimeToNight newLevel, [0]⟩
  have h1 : Runs NotStale opened ⟨⟨newLevel, []⟩, some c, 0, 1, [], [setTimeToNight]⟩ :=
    .tail .refl (show NotStale opened (.edit setTimeToNight) from trivial) rfl
  have h2 : Runs NotStale opened ⟨⟨newLevel, []⟩, some c, 1, 1, [], [setTimeToNight]⟩ :=
    h1.tail (show NotStale _ .onStart from trivial) rfl
  have h3 : Runs NotStale opened ⟨c, some c, 1, 0, [], [setTimeToNight]⟩ :=
    h2.tail (show NotStale _ .save from trivial) rfl
  have h4 : Runs NotStale opened ⟨c, some c, 0, 0, [c], [setTimeToNight]⟩ :=
    h3.tail (show NotStale _ .load from trivial) rfl
  have hns : NotStale ⟨c, some c, 0, 0, [c], [setTimeToNight]⟩ .message := by
    rintro l ls c' hl hc' n hn
    obtain ⟨rfl, -⟩ := List.cons.inj hl
    obtain rfl := Option.some.inj hc'
    exact hn
  have h5 : Runs NotStale opened ⟨c, some c, 0, 0, [], [setTimeToNight]⟩ := h4.tail hns rfl
  have hq : Quiet (⟨c, some c, 0, 0, [], [setTimeToNight]⟩ : State Level) := ⟨rfl, rfl, rfl⟩
  exact ⟨initial_opened, _, h5, hq, rfl, (edits_kept _ _ initial_opened h5 hq).1⟩

end WorldToPE.EditorActivity
