import Mathlib.Tactic

/-!
# WorldToPE.Lib.Run — runs of a stateful object whose callers catch exceptions

An operation is an `EStateM` action: it returns a value or throws, and in both cases leaves a state.
A run executes a list of operations one after another; an exception is caught by the caller and the
run goes on from the state the operation left.

* `after`, `result`: the state and the outcome of one operation.
* `run`: the state after a list of operations; `run_append`, `run_concat`.
* `onFst`, `onSnd`: actions of one of two objects.
* `forUpTo`: the counted loop `for (i = 0; i < n; i++)`; `forUpTo_ok` is its invariant rule, and
  `forUpTo_error` the rule for a loop that throws.
* `Keeps`: what an action keeps however it ends, with its rules for `bind` and loops;
  `forUpTo_eq_ok` goes from a loop that returned to its rounds.
* `run_induction_of`: what every step preserves holds after every run whose steps all meet a
  condition (`Steps`), a predicate of the state before the step and of the operation.
-/

namespace Run

variable {ε σ α β ο : Type}

/-! ## Evaluating an action -/

@[simp] theorem pure_apply (a : α) (s : σ) : (pure a : EStateM ε σ α) s = .ok a s := rfl

@[simp] theorem get_apply (s : σ) : (get : EStateM ε σ σ) s = .ok s s := rfl

@[simp] theorem set_apply (t s : σ) : (set t : EStateM ε σ PUnit) s = .ok () t := rfl

@[simp] theorem modify_apply (f : σ → σ) (s : σ) :
    (modify f : EStateM ε σ PUnit) s = .ok () (f s) := rfl

@[simp] theorem throw_apply (e : ε) (s : σ) : (throw e : EStateM ε σ α) s = .error e s := rfl

@[simp] theorem bind_apply (m : EStateM ε σ α) (f : α → EStateM ε σ β) (s : σ) :
    (m >>= f) s = match m s with
      | .ok a s' => f a s'
      | .error e s' => .error e s' := rfl

@[simp] theorem map_apply (m : EStateM ε σ α) (f : α → β) (s : σ) :
    (f <$> m) s = match m s with
      | .ok a s' => .ok (f a) s'
      | .error e s' => .error e s' := rfl

theorem bind_of_ok {m : EStateM ε σ α} {f : α → EStateM ε σ β} {s s' : σ} {a : α}
    (h : m s = .ok a s') : (m >>= f) s = f a s' := by
  rw [bind_apply, h]

theorem bind_of_error {m : EStateM ε σ α} {f : α → EStateM ε σ β} {s s' : σ} {e : ε}
    (h : m s = .error e s') : (m >>= f) s = .error e s' := by
  rw [bind_apply, h]

/-- A sequence does not tell two states apart that its first action takes to the same. -/
theorem bind_congr_state {m : EStateM ε σ α} {f : α → EStateM ε σ β} {s t : σ} (h : m s = m t) :
    (m >>= f) s = (m >>= f) t := by
  rw [bind_apply, bind_apply, h]

/-- What it takes for a sequence to succeed. -/
theorem bind_eq_ok {m : EStateM ε σ α} {f : α → EStateM ε σ β} {s t : σ} {b : β} :
    (m >>= f) s = .ok b t ↔ ∃ a s', m s = .ok a s' ∧ f a s' = .ok b t := by
  rw [bind_apply]
  constructor
  · intro h
    cases hm : m s with
    | ok a s' =>
      rw [hm] at h
      exact ⟨a, s', rfl, h⟩
    | error e s' =>
      rw [hm] at h
      cases h
  · rintro ⟨a, s', hm, h⟩
    rw [hm]
    exact h

/-- A computation that does not look at the state. -/
def lift (x : Except ε α) : EStateM ε σ α := fun s =>
  match x with
  | .ok a => .ok a s
  | .error e => .error e s

theorem lift_eq_ok {x : Except ε α} {s t : σ} {a : α} :
    lift x s = .ok a t ↔ x = .ok a ∧ s = t := by
  cases x <;> simp [lift]

theorem lift_of_ok {x : Except ε α} {a : α} (h : x = .ok a) (s : σ) : lift x s = .ok a s := by
  rw [h]
  rfl

/-! ## Two objects -/

/-- An action of the first of two objects. -/
def onFst {τ : Type} (m : EStateM ε σ α) : EStateM ε (σ × τ) α := fun s =>
  match m s.1 with
  | .ok a t => .ok a (t, s.2)
  | .error e t => .error e (t, s.2)

/-- An action of the second of two objects. -/
def onSnd {τ : Type} (m : EStateM ε τ α) : EStateM ε (σ × τ) α := fun s =>
  match m s.2 with
  | .ok a t => .ok a (s.1, t)
  | .error e t => .error e (s.1, t)

theorem onFst_of_ok {τ : Type} {m : EStateM ε σ α} {s s' : σ} {a : α} (h : m s = .ok a s') (t : τ) :
    onFst m (s, t) = .ok a (s', t) := by
  simp [onFst, h]

theorem onFst_eq_ok {τ : Type} {m : EStateM ε σ α} {p q : σ × τ} {a : α} :
    onFst m p = .ok a q ↔ m p.1 = .ok a q.1 ∧ q.2 = p.2 := by
  obtain ⟨s', t'⟩ := q
  cases h : m p.1 with
  | ok b s => simp [onFst, h, and_assoc, eq_comm]
  | error e s => simp [onFst, h]

theorem onSnd_of_ok {τ : Type} {m : EStateM ε τ α} {t t' : τ} {a : α} (h : m t = .ok a t') (s : σ) :
    onSnd m (s, t) = .ok a (s, t') := by
  simp [onSnd, h]

/-! ## State and outcome of one operation -/

/-- The state an action leaves, also when it throws. -/
def after (m : EStateM ε σ α) (s : σ) : σ :=
  match m s with
  | .ok _ s' => s'
  | .error _ s' => s'

/-- The value an action returns or the exception it throws. -/
def result (m : EStateM ε σ α) (s : σ) : Except ε α :=
  match m s with
  | .ok a _ => .ok a
  | .error e _ => .error e

theorem after_of_ok {m : EStateM ε σ α} {s s' : σ} {a : α} (h : m s = .ok a s') :
    after m s = s' := by
  simp [after, h]

theorem after_of_error {m : EStateM ε σ α} {s s' : σ} {e : ε} (h : m s = .error e s') :
    after m s = s' := by
  simp [after, h]

theorem result_of_ok {m : EStateM ε σ α} {s s' : σ} {a : α} (h : m s = .ok a s') :
    result m s = .ok a := by
  simp [result, h]

theorem result_eq_ok {m : EStateM ε σ α} {s : σ} {a : α} :
    result m s = .ok a ↔ ∃ s', m s = .ok a s' := by
  constructor
  · intro h
    unfold result at h
    cases hm : m s with
    | ok b s' =>
      rw [hm] at h
      obtain rfl := Except.ok.inj h
      exact ⟨s', rfl⟩
    | error e s' =>
      rw [hm] at h
      cases h
  · rintro ⟨s', h⟩
    exact result_of_ok h

theorem after_bind (m : EStateM ε σ α) (f : α → EStateM ε σ β) (s : σ) :
    after (m >>= f) s = match m s with
      | .ok a s' => after (f a) s'
      | .error _ s' => s' := by
  unfold after
  rw [bind_apply]
  cases m s <;> rfl

theorem after_map (m : EStateM ε σ α) (f : α → β) (s : σ) : after (f <$> m) s = after m s := by
  unfold after
  rw [map_apply]
  cases m s <;> rfl

theorem after_bind_pure (m : EStateM ε σ α) (b : β) (s : σ) :
    after (m >>= fun _ => pure b) s = after m s := by
  rw [after_bind, after]
  cases m s <;> rfl

theorem result_map {m : EStateM ε σ α} {f : α → β} {s : σ} {a : α} (h : result m s = .ok a) :
    result (f <$> m) s = .ok (f a) := by
  obtain ⟨s', hm⟩ := result_eq_ok.mp h
  unfold result
  rw [map_apply, hm]

/-! ## Counted loops -/

section Loops

variable {body : ℕ → EStateM ε σ PUnit}

/-- `for (i = 0; i < n; i++) body(i)`. -/
def forUpTo : ℕ → (ℕ → EStateM ε σ PUnit) → EStateM ε σ PUnit
  | 0, _ => pure ()
  | n + 1, body => do
    forUpTo n body
    body n

/-- **Loop rule**: if every round succeeds and carries the invariant on, so does the loop. -/
theorem forUpTo_ok {I : ℕ → σ → Prop} {s : σ} (h0 : I 0 s) : ∀ n,
    (∀ i < n, ∀ t, I i t → ∃ t', body i t = .ok () t' ∧ I (i + 1) t') →
    ∃ t, forUpTo n body s = .ok () t ∧ I n t
  | 0, _ => ⟨s, rfl, h0⟩
  | n + 1, hstep => by
    obtain ⟨t, ht, hI⟩ := forUpTo_ok h0 n fun i hi => hstep i (by omega)
    obtain ⟨t', ht', hI'⟩ := hstep n (by omega) t hI
    exact ⟨t', by rw [forUpTo, bind_of_ok ht, ht'], hI'⟩

/-- A loop that failed stays failed with more rounds. -/
theorem forUpTo_of_error {s t : σ} {e : ε} {m : ℕ} (h : forUpTo m body s = .error e t) :
    ∀ n, m ≤ n → forUpTo n body s = .error e t := by
  intro n hn
  induction n, hn using Nat.le_induction with
  | base => exact h
  | succ n _ ih => rw [forUpTo, bind_of_error ih]

/-- A loop ends in the first round that throws. -/
theorem forUpTo_error {I : ℕ → σ → Prop} {s : σ} {e : ε} {i n : ℕ} (h0 : I 0 s) (hi : i < n)
    (hstep : ∀ j < i, ∀ t, I j t → ∃ t', body j t = .ok () t' ∧ I (j + 1) t')
    (hbody : ∀ t, I i t → ∃ t', body i t = .error e t') : ∃ t', forUpTo n body s = .error e t' := by
  obtain ⟨t, ht, hI⟩ := forUpTo_ok h0 i hstep
  obtain ⟨t', ht'⟩ := hbody t hI
  refine ⟨t', forUpTo_of_error ?_ n hi⟩
  rw [forUpTo, bind_of_ok ht, ht']

/-- A loop whose first round throws. -/
theorem forUpTo_first_error {s t : σ} {e : ε} {n : ℕ} (h : body 0 s = .error e t) (hn : 0 < n) :
    forUpTo n body s = .error e t := by
  have h0 : forUpTo 0 body s = .ok () s := rfl
  refine forUpTo_of_error ?_ n hn
  rw [forUpTo, bind_of_ok h0, h]

end Loops

/-! ## What an action keeps, however it ends -/

section Keeps

variable {I : σ → Prop}

/-- The action keeps `I`, also when it throws. -/
def Keeps (I : σ → Prop) (m : EStateM ε σ α) : Prop := ∀ s, I s → I (after m s)

theorem Keeps.pure (a : α) : Keeps I (Pure.pure a : EStateM ε σ α) := fun _ h => h

theorem Keeps.throw (e : ε) : Keeps I (MonadExcept.throw e : EStateM ε σ α) := fun _ h => h

theorem Keeps.get : Keeps I (MonadState.get : EStateM ε σ σ) := fun _ h => h

theorem Keeps.update {f : σ → σ} (hf : ∀ s, I s → I (f s)) :
    Keeps I (modify f : EStateM ε σ PUnit) := hf

theorem Keeps.bind {m : EStateM ε σ α} {f : α → EStateM ε σ β} (hm : Keeps I m)
    (hf : ∀ a, Keeps I (f a)) : Keeps I (m >>= f) := by
  intro s hs
  have h := hm s hs
  rw [after_bind]
  unfold after at h
  cases hms : m s with
  | ok a s' =>
    rw [hms] at h
    exact hf a s' h
  | error e s' =>
    rw [hms] at h
    exact h

theorem Keeps.forUpTo {body : ℕ → EStateM ε σ PUnit} (hb : ∀ i, Keeps I (body i)) : ∀ n,
    Keeps I (Run.forUpTo n body)
  | 0 => Keeps.pure _
  | n + 1 => (Keeps.forUpTo hb n).bind fun _ => hb n

/-- In a loop that returned every round returned, from a state with the invariant. -/
theorem forUpTo_eq_ok {body : ℕ → EStateM ε σ PUnit} (hb : ∀ i, Keeps I (body i)) {s : σ} (h0 : I s) :
    ∀ n {t : σ}, Run.forUpTo n body s = .ok () t →
      I t ∧ ∀ i < n, ∃ s' t', I s' ∧ body i s' = .ok () t'
  | 0, t, h => by
    cases h
    exact ⟨h0, by omega⟩
  | n + 1, t, h => by
    obtain ⟨_, u, hu, ht⟩ := bind_eq_ok.mp h
    obtain ⟨hI, hall⟩ := forUpTo_eq_ok hb h0 n hu
    have hkeep := hb n u hI
    rw [after_of_ok ht] at hkeep
    refine ⟨hkeep, fun i hi => ?_⟩
    rcases Nat.lt_succ_iff_lt_or_eq.mp hi with hlt | rfl
    · exact hall i hlt
    · exact ⟨u, t, hI, ht⟩

end Keeps

/-! ## Runs -/

section Runs

variable (exec : ο → EStateM ε σ α)

/-- The state after a list of operations. -/
def run (s : σ) (ops : List ο) : σ := ops.foldl (fun s op => after (exec op) s) s

@[simp] theorem run_nil (s : σ) : run exec s [] = s := rfl

@[simp] theorem run_cons (s : σ) (op : ο) (ops : List ο) :
    run exec s (op :: ops) = run exec (after (exec op) s) ops := rfl

theorem run_append (s : σ) (ops ops' : List ο) :
    run exec s (ops ++ ops') = run exec (run exec s ops) ops' :=
  List.foldl_append

theorem run_concat (s : σ) (ops : List ο) (op : ο) :
    run exec s (ops ++ [op]) = after (exec op) (run exec s ops) := by
  rw [run_append]
  rfl

/-- Every step of the run from `s` meets the condition `P`. -/
def Steps (P : σ → ο → Prop) : σ → List ο → Prop
  | _, [] => True
  | s, op :: ops => P s op ∧ Steps P (after (exec op) s) ops

variable {exec}

theorem steps_append {P : σ → ο → Prop} {s : σ} {ops ops' : List ο} :
    Steps exec P s (ops ++ ops') ↔ Steps exec P s ops ∧ Steps exec P (run exec s ops) ops' := by
  induction ops generalizing s with
  | nil => simp [Steps]
  | cons o ops ih =>
    simp only [List.cons_append, Steps, run_cons, ih]
    exact and_assoc.symm

theorem steps_concat {P : σ → ο → Prop} {s : σ} {ops : List ο} {op : ο} :
    Steps exec P s (ops ++ [op]) ↔ Steps exec P s ops ∧ P (run exec s ops) op := by
  rw [steps_append]
  simp [Steps]

theorem steps_of_forall {P : ο → Prop} : ∀ {ops : List ο} {s : σ}, (∀ op ∈ ops, P op) →
    Steps exec (fun _ op => P op) s ops
  | [], _, _ => trivial
  | _ :: _, _, h => ⟨h _ List.mem_cons_self, steps_of_forall fun o ho => h o (List.mem_cons_of_mem _ ho)⟩

/-- **Run rule.**  A relation `I` between the operations done so far and the state reached holds
after every run whose steps meet `P`, if it holds at the start and every such step keeps it. -/
theorem run_induction_of {P : σ → ο → Prop} {I : List ο → σ → Prop} {s : σ} (h0 : I [] s)
    (hstep : ∀ ops op t, I ops t → P t op → I (ops ++ [op]) (after (exec op) t)) (ops : List ο)
    (hP : Steps exec P s ops) : I ops (run exec s ops) := by
  induction ops using List.reverseRecOn with
  | nil => exact h0
  | append_singleton ops op ih =>
    obtain ⟨h1, h2⟩ := steps_concat.mp hP
    rw [run_concat]
    exact hstep ops op _ (ih h1) h2

end Runs

end Run
