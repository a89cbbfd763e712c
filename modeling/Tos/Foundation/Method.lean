import Mathlib.Control.Basic
import Mathlib.Order.Defs.Unbundled
import Mathlib.Data.Set.Basic
import Mathlib.Tactic.Common

/-!
# Methods of an object

A method of an object may change the object and may throw, and what it changed before it threw
stays changed. So it is a state transformer that returns its outcome together with the object.
This file has the rules by which the run of a method is taken apart.

## Main results

* `Method.on_bind_of_ok`, `Method.on_bind_eq_ok`: a method that starts with a step that returns,
  and what a method that returns has done.
* `Method.Runs.bind`: one method after another, with what both of them log within bounds.
* `Method.Runs.returns_planned`: a method that is planned to stay within bounds does.
-/

/-- A method of objects `σ` that may throw an `ε`. -/
abbrev Method (ε σ : Type) := ExceptT ε (StateM σ)

namespace Method

open List

variable {ε σ α β : Type} {b b' : σ}

/-- The outcome of a method on an object, and the object afterwards. -/
def on (m : Method ε σ α) (b : σ) : Except ε α × σ := m.run.run b

/-- A call of a function that knows nothing of the object. -/
def call {ε' : Type} (wrap : ε' → ε) (x : Except ε' α) : Method ε σ α :=
  match x with
  | .ok a => pure a
  | .error e => throw (wrap e)

/-- `pure` returns its argument. -/
@[simp] lemma on_pure (a : α) : (pure a : Method ε σ α).on b = (.ok a, b) := rfl

/-- `throw` leaves the object as it is. -/
@[simp] lemma on_throw (e : ε) : (throw e : Method ε σ α).on b = (.error e, b) := rfl

/-- `get` returns the object. -/
@[simp] lemma on_get : (get : Method ε σ σ).on b = (.ok b, b) := rfl

/-- `modify` changes the object. -/
@[simp] lemma on_modify (f : σ → σ) : (modify f : Method ε σ Unit).on b = (.ok (), f b) := rfl

variable {c : Prop}

/-- A method that depends on a condition. -/
@[simp] lemma on_ite [Decidable c] (m n : Method ε σ α) :
    (if c then m else n).on b = if c then m.on b else n.on b := by
  split_ifs <;> rfl

/-- A step that is made only under a condition. -/
def onlyIf (c : Prop) [Decidable c] (m : Method ε σ Unit) : Method ε σ Unit :=
  if c then m else pure ()

/-- A method under a condition, and nothing otherwise. -/
lemma on_onlyIf [Decidable c] (m : Method ε σ Unit) :
    (onlyIf c m).on b = if c then m.on b else (.ok (), b) := by
  rw [onlyIf, on_ite, on_pure]

/-- What a method does after another one: nothing if that one throws. -/
lemma on_bind (m : Method ε σ α) (f : α → Method ε σ β) :
    (m >>= f).on b = match m.on b with
      | (.ok a, b') => (f a).on b'
      | (.error e, b') => (.error e, b') := by
  change StateT.run (ExceptT.run (m >>= f)) b = _
  simp only [ExceptT.run_bind, StateT.run_bind]
  cases h : m.on b with
  | mk r b' =>
    have h' : StateT.run (ExceptT.run m) b = (r, b') := h
    simp only [h']
    cases r <;> rfl

variable {m : Method ε σ α} {f : α → Method ε σ β} {a : α}

/-- The rest of a method after a step that returns. -/
lemma on_bind_of_ok (h : m.on b = (.ok a, b')) : (m >>= f).on b = (f a).on b' := by
  rw [on_bind, h]

/-- Only the outcome of the first step matters. -/
lemma on_bind_congr {m m' : Method ε σ α} (h : m.on b = m'.on b) (f : α → Method ε σ β) :
    (m >>= f).on b = (m' >>= f).on b := by
  rw [on_bind, on_bind, h]

/-- The rest of a method after a step that throws is not run. -/
lemma on_bind_of_error {e : ε} (h : m.on b = (.error e, b')) : (m >>= f).on b = (.error e, b') := by
  rw [on_bind, h]

/-- What a method that returns has done. -/
lemma on_bind_eq_ok {y : β} :
    (m >>= f).on b = (.ok y, b') ↔ ∃ a b₁, m.on b = (.ok a, b₁) ∧ (f a).on b₁ = (.ok y, b') := by
  rw [on_bind]
  rcases h : m.on b with ⟨r, b₁⟩
  cases r with
  | error e => simp
  | ok a => simp

/-- A change first. -/
lemma on_modify_bind {f : σ → σ} {g : Unit → Method ε σ β} :
    (modify f >>= g).on b = (g ()).on (f b) := on_bind_of_ok rfl

/-- A look at the object first. -/
lemma on_get_bind {g : σ → Method ε σ β} : (get >>= g).on b = (g b).on b := on_bind_of_ok rfl

/-- What a method catches does not undo its changes. -/
lemma on_tryCatch (m : Method ε σ α) (f : ε → Method ε σ α) :
    (tryCatch m f).on b = match m.on b with
      | (.ok a, b') => (.ok a, b')
      | (.error e, b') => (f e).on b' := by
  change StateT.run (ExceptT.run (ExceptT.tryCatch m f)) b = _
  simp only [ExceptT.tryCatch, ExceptT.run_mk, StateT.run_bind]
  cases h : m.on b with
  | mk r b' =>
    have h' : StateT.run m b = (r, b') := h
    simp only [h']
    cases r <;> rfl

/-- The value that is returned at the end does not matter for the object. -/
lemma on_bind_pure_snd (m : Method ε σ α) (y : β) :
    ((m >>= fun _ => pure y).on b).2 = (m.on b).2 := by
  rw [on_bind]
  rcases m.on b with ⟨r, b'⟩
  cases r <;> rfl

/-! ### What a method leaves alone -/

/-- The method leaves a part of the object as it is, whatever its outcome. -/
def Keeps {γ : Type} (part : σ → γ) (m : Method ε σ α) : Prop := ∀ b, part (m.on b).2 = part b

variable {n : Method ε σ α}

section Keeps

variable {γ : Type} {part : σ → γ}

/-- `pure` keeps every part. -/
lemma keeps_pure (a : α) : Keeps part (pure a : Method ε σ α) := fun _ => rfl

/-- A call of a function keeps every part. -/
lemma keeps_call {ε' : Type} (wrap : ε' → ε) (x : Except ε' α) :
    Keeps part (call wrap x : Method ε σ α) := fun _ => by cases x <;> rfl

/-- `get` keeps every part. -/
lemma keeps_get : Keeps part (get : Method ε σ σ) := fun _ => rfl

/-- A change keeps the parts that it does not touch. -/
lemma keeps_modify {f : σ → σ} (h : ∀ b, part (f b) = part b) :
    Keeps part (modify f : Method ε σ Unit) := h

/-- Two methods keep what both of them keep. -/
lemma Keeps.bind (hm : Keeps part m) (hf : ∀ a, Keeps part (f a)) : Keeps part (m >>= f) := by
  intro b
  have h := hm b
  rw [on_bind]
  rcases e : m.on b with ⟨r, b₁⟩
  rw [e] at h
  cases r with
  | error e => exact h
  | ok a => exact (hf a b₁).trans h

/-- What is computed from a kept part is kept. -/
lemma Keeps.of_part {δ : Type} (h : Keeps part m) (f : γ → δ) :
    Keeps (fun b => f (part b)) m := fun b => congrArg f (h b)

/-- Both sides of a condition keep the part. -/
lemma Keeps.ite [Decidable c] (hm : Keeps part m)
    (hn : Keeps part n) : Keeps part (if c then m else n) := by
  split_ifs
  · exact hm
  · exact hn

end Keeps

/-! ### What a method changes and throws -/

/-- The method changes the object only along a relation, whatever its outcome, and all that it
throws has a property. -/
structure Obeys (R : σ → σ → Prop) (P : ε → Prop) (m : Method ε σ α) : Prop where
  within : ∀ b, R b (m.on b).2
  throws : ∀ b e, (m.on b).1 = .error e → P e

/-- The method changes the object only along a relation. -/
abbrev Within (R : σ → σ → Prop) (m : Method ε σ α) : Prop := Obeys R (fun _ => True) m

/-- Any change. -/
def Anyhow (_ _ : σ) : Prop := True

instance : Std.Refl (Anyhow (σ := σ)) := ⟨fun _ => trivial⟩

instance : IsTrans σ Anyhow := ⟨fun _ _ _ _ _ => trivial⟩

/-- All that the method throws has a property. -/
abbrev Throws (P : ε → Prop) (m : Method ε σ α) : Prop := Obeys Anyhow P m

section Obeys

variable {R : σ → σ → Prop} {P : ε → Prop}

/-- Returning a value changes nothing. -/
lemma obeys_pure [Std.Refl R] (a : α) : Obeys R P (pure a : Method ε σ α) :=
  ⟨fun b => Std.Refl.refl b, fun _ _ h => by cases h⟩

/-- Throwing changes nothing. -/
lemma obeys_throw [Std.Refl R] {e : ε} (h : P e) : Obeys R P (throw e : Method ε σ α) :=
  ⟨fun b => Std.Refl.refl b, fun _ _ he => Except.error.inj he ▸ h⟩

/-- Reading the object changes nothing. -/
lemma obeys_get [Std.Refl R] : Obeys R P (get : Method ε σ σ) :=
  ⟨fun b => Std.Refl.refl b, fun _ _ h => by cases h⟩

/-- A change along the relation. -/
lemma obeys_modify {f : σ → σ} (h : ∀ b, R b (f b)) : Obeys R P (modify f : Method ε σ Unit) :=
  ⟨h, fun _ _ h => by cases h⟩

/-- A change throws nothing. -/
lemma throws_modify (f : σ → σ) : Throws P (modify f : Method ε σ Unit) :=
  obeys_modify fun _ => trivial

/-- One method after another. -/
lemma Obeys.bind [IsTrans σ R] (hm : Obeys R P m) (hf : ∀ a, Obeys R P (f a)) :
    Obeys R P (m >>= f) := by
  have hon : ∀ b, R b ((m >>= f).on b).2 ∧ ∀ e, ((m >>= f).on b).1 = .error e → P e := by
    intro b
    have hR := hm.within b
    have hP := hm.throws b
    rw [on_bind]
    rcases e : m.on b with ⟨r, b₁⟩
    rw [e] at hR hP
    cases r with
    | error e => exact ⟨hR, fun e' he => hP e' (by cases he; rfl)⟩
    | ok a => exact ⟨IsTrans.trans _ _ _ hR ((hf a).within b₁), (hf a).throws b₁⟩
  exact ⟨fun b => (hon b).1, fun b => (hon b).2⟩

/-- Either of two methods. -/
lemma Obeys.ite [Decidable c] (hm : Obeys R P m) (hn : Obeys R P n) :
    Obeys R P (if c then m else n) := by
  split_ifs
  · exact hm
  · exact hn

/-- A method that may be left out. -/
lemma Obeys.onlyIf [Std.Refl R] [Decidable c] {m : Method ε σ Unit} (hm : Obeys R P m) :
    Obeys R P (onlyIf c m) := .ite hm (obeys_pure ())

end Obeys

/-! ### What a method only adds to -/

/-- The method only adds to a log that belongs to the object, whatever its outcome. The instances
follow the text of a method. -/
class Grows {γ : Type} (log : σ → List γ) (m : Method ε σ α) : Prop where
  suffix : ∀ b, log b <:+ log (m.on b).2

section Grows

variable {γ : Type} {log : σ → List γ}

instance (a : α) : Grows log (pure a : Method ε σ α) := ⟨fun _ => suffix_rfl⟩

instance (e : ε) : Grows log (throw e : Method ε σ α) := ⟨fun _ => suffix_rfl⟩

instance : Grows log (get : Method ε σ σ) := ⟨fun _ => suffix_rfl⟩

instance {ε' : Type} (wrap : ε' → ε) (x : Except ε' α) :
    Grows log (call wrap x : Method ε σ α) := ⟨fun b => by cases x <;> exact suffix_rfl⟩

instance [hm : Grows log m] [hf : ∀ a, Grows log (f a)] : Grows log (m >>= f) where
  suffix b := by
    have h := hm.suffix b
    rw [on_bind]
    rcases e : m.on b with ⟨r, b₁⟩
    rw [e] at h
    cases r with
    | error e => exact h
    | ok a => exact h.trans ((hf a).suffix b₁)

instance [Decidable c] [hm : Grows log m] [hn : Grows log n] : Grows log (if c then m else n) := by
  split_ifs
  · exact hm
  · exact hn

end Grows

/-! ### Methods that return as long as what they log stays within bounds -/

/-- The entries of a log, the last one first: as long as all of them were in `W`, the next one is
in `V`. -/
def Planned {γ : Type} (W V : Set γ) : List γ → Prop
  | [] => True
  | s :: l => Planned W V l ∧ ((∀ x ∈ l, x ∈ W) → s ∈ V)

/-- The method returns with a property if all that it logs is in `W`; as long as that is so, what
it logs is in `V`. -/
def Runs {γ : Type} (log : σ → List γ) (W V : Set γ) (m : Method ε σ α) (b : σ)
    (Q : α → σ → Prop) : Prop :=
  ∃ l, log (m.on b).2 = l ++ log b ∧ Planned W V l ∧
    ((∀ x ∈ l, x ∈ W) → ∃ a b', m.on b = (.ok a, b') ∧ Q a b')

section Runs

variable {γ : Type} {log : σ → List γ} {W V : Set γ}

/-- Two stretches of a log: the second one may rely on what is in the first. -/
lemma Planned.append {l₁ l₂ : List γ} (h₁ : Planned W V l₁)
    (h₂ : (∀ x ∈ l₁, x ∈ W) → Planned W V l₂) : Planned W V (l₂ ++ l₁) := by
  induction l₂ with
  | nil => exact h₁
  | cons s l₂ ih =>
    refine ⟨ih fun h => (h₂ h).1, fun h => (h₂ fun x hx => h x ?_).2 fun x hx => h x ?_⟩
    · exact mem_append_right l₂ hx
    · exact mem_append_left l₁ hx

/-- All that was planned is in the set. -/
lemma Planned.mem (hVW : V ⊆ W) {l : List γ} (h : Planned W V l) : ∀ x ∈ l, x ∈ V := by
  induction l with
  | nil => simp
  | cons s l ih =>
    have hl := ih h.1
    exact forall_mem_cons.mpr ⟨h.2 fun x hx => hVW (hl x hx), hl⟩

variable {Q : α → σ → Prop}

/-- A method that logs nothing. -/
lemma Runs.of_on (h : m.on b = (.ok a, b'))
    (hlog : log b' = log b) (hq : Q a b') : Runs log W V m b Q :=
  ⟨[], by rw [h]; exact hlog, trivial, fun _ => ⟨a, b', h, hq⟩⟩

/-- A method that logs one entry. -/
lemma Runs.of_log {s : γ}
    (h : m.on b = (.ok a, b')) (hlog : log b' = s :: log b) (hs : s ∈ V) (hq : s ∈ W → Q a b') :
    Runs log W V m b Q :=
  ⟨[s], by rw [h]; exact hlog, ⟨trivial, fun _ => hs⟩, fun hw => ⟨a, b', h, hq (hw s (by simp))⟩⟩

/-- Methods that do the same on an object have the same runs. -/
lemma Runs.of_eq {m m' : Method ε σ α} (h : m.on b = m'.on b)
    (hm : Runs log W V m' b Q) : Runs log W V m b Q := by
  unfold Runs
  rw [h]
  exact hm

/-- A first step whose outcome is known and that logs nothing. -/
lemma Runs.change {Q : β → σ → Prop}
    (h : m.on b = (.ok a, b')) (hlog : log b' = log b) (hf : Runs log W V (f a) b' Q) :
    Runs log W V (m >>= f) b Q := by
  unfold Runs
  rw [on_bind_of_ok h, ← hlog]
  exact hf

/-- A first step that leaves the object as it is. -/
lemma Runs.step {Q : β → σ → Prop}
    (h : m.on b = (.ok a, b)) (hf : Runs log W V (f a) b Q) : Runs log W V (m >>= f) b Q :=
  .change h rfl hf

/-- One method after another; what the first one logged stays in the log. -/
lemma Runs.bind {P : α → σ → Prop} {Q : β → σ → Prop} [g : ∀ a, Grows log (f a)]
    (hm : Runs log W V m b P) (hf : ∀ a b', P a b' → Runs log W V (f a) b' Q) :
    Runs log W V (m >>= f) b Q := by
  obtain ⟨l₁, hl₁, hplan, hret⟩ := hm
  unfold Runs
  rw [on_bind]
  rcases e : m.on b with ⟨r, b₁⟩
  rw [e] at hl₁ hret
  cases r with
  | error e =>
    refine ⟨l₁, hl₁, hplan, fun hw => ?_⟩
    obtain ⟨a, b', heq, -⟩ := hret hw
    simp at heq
  | ok a =>
    obtain ⟨l₂, hl₂⟩ := (g a).suffix b₁
    -- Once the first method has stayed within bounds, the second one runs as it should.
    have hnext : (∀ x ∈ l₁, x ∈ W) → Planned W V l₂ ∧ ((∀ x ∈ l₂, x ∈ W) →
        ∃ y b', (f a).on b₁ = (.ok y, b') ∧ Q y b') := by
      intro hw
      obtain ⟨a', b', heq, hp⟩ := hret hw
      simp only [Prod.mk.injEq, Except.ok.injEq] at heq
      obtain ⟨rfl, rfl⟩ := heq
      obtain ⟨l, hl, hrest⟩ := hf a b₁ hp
      obtain rfl : l₂ = l := append_cancel_right (hl₂.trans hl)
      exact hrest
    refine ⟨l₂ ++ l₁, by rw [← hl₂, hl₁, append_assoc],
      hplan.append fun hw => (hnext hw).1, fun hw => ?_⟩
    exact (hnext fun x hx => hw x (mem_append_right l₂ hx)).2
      fun x hx => hw x (mem_append_left l₁ hx)

/-- A method whose log is known to be in `W` returns. -/
lemma Runs.returns (hm : Runs log W V m b Q)
    (hw : ∀ x ∈ log (m.on b).2, x ∈ W) : ∃ a b', m.on b = (.ok a, b') ∧ Q a b' := by
  obtain ⟨l, hl, -, hret⟩ := hm
  exact hret fun x hx => hw x (by rw [hl]; exact mem_append_left _ hx)

/-- A method that is planned to stay within bounds returns, and logs what was planned. -/
lemma Runs.returns_planned (hm : Runs log W V m b Q) (hVW : V ⊆ W) :
    ∃ a b', m.on b = (.ok a, b') ∧ Q a b' ∧ ∀ x ∈ log b', x ∈ V ∨ x ∈ log b := by
  obtain ⟨l, hl, hplan, hret⟩ := hm
  have hmem := hplan.mem hVW
  obtain ⟨a, b', hon, hq⟩ := hret fun x hx => hVW (hmem x hx)
  rw [hon] at hl
  exact ⟨a, b', hon, hq, fun x hx => (mem_append.mp (hl ▸ hx)).imp_left (hmem x)⟩

end Runs

end Method
