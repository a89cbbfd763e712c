import Mathlib

/-!
# The worker thread

The class `Worker` runs a thread that other threads start, stop and terminate. They share the atomic
variable `m_state`, the mutex `x_work`, a condition variable, and the pointer `m_work` to the
thread. Here each access to the shared state is a step of its own; a thread gives the mutex back
with its last access in a critical section. A wait gives the mutex back, and may end at any time, as
that of a condition variable may.

`terminate` stores `Killing` under the mutex and then waits for the worker thread to end. The worker
thread looks for `Killing` without the mutex, and under the mutex stores `Started` without another
look: a value that is stored in between is lost. And when it returns from its work, it replaces
whatever is stored by `Stopped`, before it puts `Killing` back.

## Main results

* `Inv.step`: what every step keeps, if `Killing` is stored only when the worker is parked.
* `killed_iff`: when the worker stays killed.
-/

namespace Tos.Worker

open Function (update update_of_ne update_self)

/-- `WorkerState`. -/
inductive WorkerState where
  | starting
  | started
  | stopping
  | stopped
  | killing
  deriving DecidableEq

/-- Where the worker thread is. -/
inductive WorkerPc where
  /-- At the test of its loop, `m_state != Killing`. -/
  | test
  /-- Before the first critical section, and in it before `Started` is stored. -/
  | lockStart
  | store
  /-- Before `startedWorking` and `workLoop` are called, and in these or in `doneWorking`. -/
  | enter
  | work
  /-- Before the second critical section; in it before `Stopped` is stored, and behind that. -/
  | lockStop
  | exchange
  | restore (ex : WorkerState)
  /-- Before the third critical section, at its test `m_state == Stopped`, and waiting. -/
  | lockWait
  | check
  | waiting
  /-- The thread has ended, and another one has joined it. -/
  | done
  | joined
  deriving DecidableEq

/-- The methods that are called by other threads. -/
inductive Call where
  | startWorking
  | stopWorking
  | terminate
  deriving DecidableEq

/-- Where a thread is that calls the methods. -/
inductive ClientPc where
  | idle
  /-- Before the mutex is taken. -/
  | lock (c : Call)
  /-- `startWorking`: under the mutex, before a thread is created, at the test `m_state ==
  Starting`, and waiting. -/
  | start
  | spawn
  | startCheck
  | startWait
  /-- `stopWorking`: under the mutex, at the test `m_state != Stopped`, and waiting. -/
  | stop
  | stopCheck
  | stopWait
  /-- `terminate`: under the mutex, at `join`, before the mutex is taken again, and under it. -/
  | terminate
  | join
  | lockReset
  | reset
  deriving DecidableEq

variable {Thread : Type}

/-- What the threads share: the owner of the mutex is a thread that calls, or the worker thread. -/
structure Shared (Thread : Type) where
  m_state : WorkerState := .starting
  m_work : Option WorkerPc := none
  x_work : Option (Option Thread) := none

namespace Shared

/-- The mutex is taken if it is free. -/
def acquire {α : Type} (g : Shared Thread) (owner : Option Thread) (pc : α) :
    Option (α × Shared Thread) :=
  match g.x_work with
  | none => some (pc, { g with x_work := some owner })
  | some _ => none

/-- The mutex is given back. -/
def release (g : Shared Thread) : Shared Thread := { g with x_work := none }

end Shared

/-- Where a method goes on under the mutex. -/
def Call.body : Call → ClientPc
  | .startWorking => .start
  | .stopWorking => .stop
  | .terminate => .terminate

/-- The next step of a thread that is in one of the methods. -/
def clientStep (t : Thread) (g : Shared Thread) : ClientPc → Option (ClientPc × Shared Thread)
  | .idle => none
  | .lock c => g.acquire (some t) c.body
  | .start =>
    match g.m_work with
    | some _ =>
      -- compare_exchange_strong(Stopped, Starting)
      some (.startCheck, if g.m_state = .stopped then { g with m_state := .starting } else g)
    | none => some (.spawn, { g with m_state := .starting })
  | .spawn => some (.startCheck, { g with m_work := some .test })
  | .startCheck =>
    if g.m_state = .starting then some (.startWait, g.release) else some (.idle, g.release)
  | .startWait => g.acquire (some t) .startCheck
  | .stop =>
    match g.m_work with
    | some _ =>
      -- compare_exchange_strong(Started, Stopping)
      if g.m_state = .started then some (.stopCheck, { g with m_state := .stopping })
      else some (.idle, g.release)
    | none => some (.idle, g.release)
  | .stopCheck =>
    if g.m_state = .stopped then some (.idle, g.release) else some (.stopWait, g.release)
  | .stopWait => g.acquire (some t) .stopCheck
  | .terminate =>
    match g.m_work with
    | some _ =>
      -- exchange(Killing)
      if g.m_state = .killing then some (.idle, g.release)
      else some (.join, { g with m_state := .killing }.release)
    | none => some (.idle, g.release)
  | .join =>
    match g.m_work with
    | some .done => some (.lockReset, { g with m_work := some .joined })
    | some .joined => some (.idle, g)   -- std::thread::join throws
    | _ => none
  | .lockReset => g.acquire (some t) .reset
  | .reset => some (.idle, { g with m_work := none }.release)

/-- The next step of the worker thread. -/
def workerStep (g : Shared Thread) : WorkerPc → Option (WorkerPc × Shared Thread)
  | .test => if g.m_state = .killing then some (.done, g) else some (.lockStart, g)
  | .lockStart => g.acquire none .store
  | .store => some (.enter, { g with m_state := .started }.release)
  | .enter => some (.work, g)
  | .work => some (.lockStop, g)
  | .lockStop => g.acquire none .exchange
  | .exchange => some (.restore g.m_state, { g with m_state := .stopped })
  | .restore ex =>
    if ex = .killing ∨ ex = .starting then some (.lockWait, { g with m_state := ex }.release)
    else some (.lockWait, g.release)
  | .lockWait => g.acquire none .check
  | .check => if g.m_state = .stopped then some (.waiting, g.release) else some (.test, g.release)
  | .waiting => g.acquire none .check
  | .done => none
  | .joined => none

/-- A worker with any number of threads. -/
structure Config (Thread : Type) where
  shared : Shared Thread
  client : Thread → ClientPc

/-- A worker as it is constructed. -/
def Config.init : Config Thread := ⟨{}, fun _ => .idle⟩

/-- One of the threads makes a step. -/
inductive Step [DecidableEq Thread] : Config Thread → Config Thread → Prop
  | call {w : Config Thread} (t : Thread) (c : Call) (h : w.client t = .idle) :
    Step w { w with client := update w.client t (.lock c) }
  | client {w : Config Thread} (t : Thread) {pc : ClientPc} {g : Shared Thread}
    (h : clientStep t w.shared (w.client t) = some (pc, g)) :
    Step w ⟨g, update w.client t pc⟩
  | worker {w : Config Thread} {pc pc' : WorkerPc} {g : Shared Thread}
    (hpc : w.shared.m_work = some pc) (h : workerStep w.shared pc = some (pc', g)) :
    Step w ⟨{ g with m_work := some pc' }, w.client⟩

/-! ### Where the threads are -/

/-- The thread owns the mutex. -/
def ClientPc.holds : ClientPc → Bool
  | .start | .spawn | .startCheck | .stop | .stopCheck | .terminate | .reset => true
  | _ => false

/-- The thread has stored `Killing` and has not reset `m_work`. -/
def ClientPc.terminating : ClientPc → Bool
  | .join | .lockReset | .reset => true
  | _ => false

/-- The worker thread owns the mutex. -/
def WorkerPc.holds : WorkerPc → Bool
  | .store | .exchange | .restore _ | .check => true
  | _ => false

/-- The worker thread is done with its work and has not begun anew. -/
def WorkerPc.parked : WorkerPc → Bool
  | .test | .lockWait | .check | .waiting | .done | .joined => true
  | _ => false

variable [DecidableEq Thread] {t u : Thread} {w w' : Config Thread}

/-- A `terminate` of `t` stores `Killing`. -/
def Kills (t : Thread) (w w' : Config Thread) : Prop :=
  w.client t = .terminate ∧ ∃ g, clientStep t w.shared .terminate = some (.join, g) ∧
    w' = ⟨g, update w.client t .join⟩

/-- The time from there until `t` resets `m_work`. -/
def During (t : Thread) : Config Thread → Config Thread → Prop :=
  Relation.ReflTransGen fun w w' => Step w w' ∧ (w'.client t).terminating = true

/-- The worker thread enters `workLoop`. -/
def Enters (w w' : Config Thread) : Prop :=
  w.shared.m_work = some .enter ∧ w'.shared.m_work = some .work

/-- A step that stores `Killing` only if the worker is parked. -/
def Careful (w w' : Config Thread) : Prop :=
  ∀ t, Kills t w w' → ∃ pc, w.shared.m_work = some pc ∧ pc.parked = true

/-- The configurations that are reached by careful steps. -/
def CarefullyReached (w : Config Thread) : Prop :=
  Relation.ReflTransGen (fun w w' => Step w w' ∧ Careful w w') .init w

/-! ### What one step does -/

section Steps

variable {g g' : Shared Thread} {pc pc' : ClientPc} {p p' : WorkerPc}

omit [DecidableEq Thread] in
lemma acquire_eq_some {α : Type} {owner : Option Thread} {a b : α}
    (h : g.acquire owner a = some (b, g')) :
    g.x_work = none ∧ b = a ∧ g' = { g with x_work := some owner } := by
  unfold Shared.acquire at h
  cases hx : g.x_work with
  | none =>
    rw [hx] at h
    cases h
    exact ⟨rfl, rfl, rfl⟩
  | some o =>
    rw [hx] at h
    cases h

/-- How a step of an agent moves the mutex: it is kept, or taken while it is free, or given back. -/
def Locks (owner : Option Thread) (before after : Bool) (g g' : Shared Thread) : Prop :=
  (after = before ∧ g'.x_work = g.x_work) ∨
    (g.x_work = none ∧ after = true ∧ g'.x_work = some owner) ∨
    (before = true ∧ after = false ∧ g'.x_work = none)

/-- What a step of a thread that calls can do. -/
structure ClientEffect (t : Thread) (g : Shared Thread) (pc pc' : ClientPc) (g' : Shared Thread) :
    Prop where
  locks : Locks (some t) pc.holds pc'.holds g g'
  /-- It does not move the worker thread into a critical section. -/
  work : ∀ p, g'.m_work = some p → p.holds = true → g.m_work = some p
  /-- A thread is created only where there is none. -/
  spawn : pc' = .spawn → g'.m_work = none
  none : pc ≠ .spawn → g.m_work = none → g'.m_work = none
  /-- `terminate` goes on only if it was the one to store `Killing`. -/
  kills : pc'.terminating = true → pc.terminating = true ∨
    (pc = .terminate ∧ pc' = .join ∧ g.m_state ≠ .killing ∧ g'.m_state = .killing ∧
      g'.m_work = g.m_work)
  /-- `Killing` is not replaced while there is a worker thread. -/
  killing : g.m_state = .killing → g.m_work ≠ Option.none → pc ≠ .spawn → g'.m_state = .killing
  parked : ∀ p, g.m_work = some p → pc ≠ .spawn → pc ≠ .reset →
    ∃ p', g'.m_work = some p' ∧ (p.parked = true → p'.parked = true)
  reset : pc = .reset → pc'.terminating = false

omit [DecidableEq Thread] in
theorem clientStep_effect (h : clientStep t g pc = some (pc', g')) :
    ClientEffect t g pc pc' g' := by
  cases pc with
  | idle => cases h
  | lock c =>
    obtain ⟨hfree, rfl, rfl⟩ := acquire_eq_some h
    cases c <;> constructor <;>
      simp_all [Locks, ClientPc.holds, ClientPc.terminating, Call.body]
  | startWait | stopWait | lockReset =>
    obtain ⟨hfree, rfl, rfl⟩ := acquire_eq_some h
    constructor <;> simp_all [Locks, ClientPc.holds, ClientPc.terminating]
  | spawn | reset =>
    cases h
    constructor <;> simp +contextual [Locks, Shared.release, ClientPc.holds,
      ClientPc.terminating, WorkerPc.holds]
  | start | startCheck | stop | stopCheck | terminate | join =>
    simp only [clientStep] at h
    split at h <;> (try split at h) <;> cases h <;> constructor <;>
      simp_all [Locks, Shared.release, ClientPc.holds, ClientPc.terminating, WorkerPc.holds,
        WorkerPc.parked]

/-- What a step of the worker thread can do. -/
structure WorkerEffect (g : Shared Thread) (p p' : WorkerPc) (g' : Shared Thread) : Prop where
  locks : Locks none p.holds p'.holds g g'
  /-- A worker that is parked when `Killing` is stored stays so. -/
  parked : g.m_state = .killing → p.parked = true → g'.m_state = .killing ∧ p'.parked = true

omit [DecidableEq Thread] in
theorem workerStep_effect (h : workerStep g p = some (p', g')) : WorkerEffect g p p' g' := by
  cases p with
  | lockStart | lockStop | lockWait | waiting =>
    obtain ⟨hfree, rfl, rfl⟩ := acquire_eq_some h
    constructor <;> simp_all [Locks, WorkerPc.holds, WorkerPc.parked]
  | done | joined => cases h
  | store | enter | work | exchange =>
    cases h
    constructor <;> simp [Locks, Shared.release, WorkerPc.holds, WorkerPc.parked]
  | test | restore | check =>
    simp only [workerStep] at h
    split at h <;> cases h <;> constructor <;>
      simp_all [Locks, Shared.release, WorkerPc.holds, WorkerPc.parked]

end Steps

/-- What holds in all of them. -/
structure Inv (w : Config Thread) : Prop where
  client_holds : ∀ u, (w.client u).holds = true → w.shared.x_work = some (some u)
  worker_holds : ∀ pc, w.shared.m_work = some pc → pc.holds = true → w.shared.x_work = some none
  spawn : ∀ u, w.client u = .spawn → w.shared.m_work = none
  killed : ∀ u, (w.client u).terminating = true →
    w.shared.m_state = .killing ∧ ∃ pc, w.shared.m_work = some pc ∧ pc.parked = true
  one : ∀ u v, (w.client u).terminating = true → (w.client v).terminating = true → u = v

omit [DecidableEq Thread] in
lemma Inv.init : Inv (.init : Config Thread) := by
  constructor <;> simp [Config.init, ClientPc.holds, ClientPc.terminating]

omit [DecidableEq Thread] in
/-- The mutex has one owner after the step of an agent if it had one before. -/
lemma Locks.keeps {owner agent : Option Thread} {before after : Bool} {g g' : Shared Thread}
    (h : Locks owner before after g g') (hne : agent ≠ owner)
    (hbefore : before = true → g.x_work = some owner) (hagent : g.x_work = some agent) :
    g'.x_work = some agent := by
  rcases h with ⟨-, hsame⟩ | ⟨hfree, -, -⟩ | ⟨hb, -, -⟩
  · rw [hsame, hagent]
  · rw [hagent] at hfree
    cases hfree
  · have howner := hbefore hb
    rw [hagent] at howner
    exact absurd (Option.some.inj howner) hne

omit [DecidableEq Thread] in
lemma Locks.own {owner : Option Thread} {before after : Bool} {g g' : Shared Thread}
    (h : Locks owner before after g g') (hbefore : before = true → g.x_work = some owner)
    (hafter : after = true) : g'.x_work = some owner := by
  rcases h with ⟨heq, hsame⟩ | ⟨-, -, htaken⟩ | ⟨-, hfalse, -⟩
  · rw [hsame, hbefore (heq ▸ hafter)]
  · exact htaken
  · rw [hafter] at hfalse
    cases hfalse

section Update

variable {g : Shared Thread} {c : Thread → ClientPc} {pc : ClientPc}

lemma client_update_self : (Config.mk g (update c t pc)).client t = pc :=
  update_self t pc c

lemma client_update_of_ne (h : u ≠ t) : (Config.mk g (update c t pc)).client u = c u :=
  update_of_ne h pc c

end Update

/-- Where the threads are after a step of one that calls. -/
lemma Inv.client (hi : Inv w) {pc : ClientPc} {g : Shared Thread}
    (he : ClientEffect t w.shared (w.client t) pc g)
    (hkill : w.client t = .terminate → pc = .join → w.shared.m_state ≠ .killing →
      ∃ p, w.shared.m_work = some p ∧ p.parked = true) : Inv ⟨g, update w.client t pc⟩ := by
  have hown := hi.client_holds t
  -- a thread that is terminating after the step was so before, or it is the one that kills
  have hterm (u : Thread)
    (hu : ((Config.mk g (update w.client t pc)).client u).terminating = true) :
      (w.client u).terminating = true ∨ (u = t ∧ w.client t = .terminate ∧ pc = .join ∧
        w.shared.m_state ≠ .killing ∧ g.m_state = .killing ∧ g.m_work = w.shared.m_work) := by
    by_cases hut : u = t
    · subst hut
      rw [client_update_self] at hu
      exact (he.kills hu).imp_right fun h => ⟨rfl, h⟩
    · rw [client_update_of_ne hut] at hu
      exact .inl hu
  -- no thread is terminating when one kills
  have hfirst (u : Thread) (hne : w.shared.m_state ≠ .killing)
      (hu : (w.client u).terminating = true) : False := hne (hi.killed u hu).1
  constructor
  · intro u hu
    by_cases hut : u = t
    · subst hut
      rw [client_update_self] at hu
      exact he.locks.own hown hu
    · rw [client_update_of_ne hut] at hu
      exact he.locks.keeps (fun h => hut (Option.some.inj h)) hown (hi.client_holds u hu)
  · intro p hp hholds
    exact he.locks.keeps (by simp) hown (hi.worker_holds p (he.work p hp hholds) hholds)
  · intro u hu
    by_cases hut : u = t
    · subst hut
      rw [client_update_self] at hu
      exact he.spawn hu
    · rw [client_update_of_ne hut] at hu
      refine he.none (fun hspawn => ?_) (hi.spawn u hu)
      -- two threads would own the mutex
      have h₁ := hi.client_holds u (by rw [hu]; rfl)
      have h₂ := hi.client_holds t (by rw [hspawn]; rfl)
      exact hut (Option.some.inj (Option.some.inj (h₁.symm.trans h₂)))
  · intro u hu
    rcases hterm u hu with hbefore | ⟨rfl, hpc, hjoin, hne, hkilled, hwork⟩
    · obtain ⟨hstate, p, hp, hparked⟩ := hi.killed u hbefore
      have hnospawn : w.client t ≠ .spawn := by
        intro hspawn
        have hnone := hi.spawn t hspawn
        rw [hp] at hnone
        cases hnone
      have hnoreset : w.client t ≠ .reset := by
        intro hreset
        -- it is the only one that is terminating, and ends with this step
        obtain rfl := hi.one u t hbefore (by rw [hreset]; rfl)
        rw [client_update_self, he.reset hreset] at hu
        cases hu
      obtain ⟨p', hp', hkeeps⟩ := he.parked p hp hnospawn hnoreset
      exact ⟨he.killing hstate (by simp [hp]) hnospawn, p', hp', hkeeps hparked⟩
    · obtain ⟨p, hp, hparked⟩ := hkill hpc hjoin hne
      exact ⟨hkilled, p, hwork.trans hp, hparked⟩
  · intro u v hu hv
    rcases hterm u hu with hu' | ⟨hut, -, -, hne, -⟩ <;>
      rcases hterm v hv with hv' | ⟨hvt, -, -, hne', -⟩
    · exact hi.one u v hu' hv'
    · exact (hfirst u hne' hu').elim
    · exact (hfirst v hne hv').elim
    · rw [hut, hvt]

/-- **What every careful step keeps.** -/
theorem Inv.step (hi : Inv w) (h : Step w w') (hc : Careful w w') : Inv w' := by
  cases h with
  | call t c hidle =>
    refine hi.client (g := w.shared) ?_ (by simp [hidle])
    rw [hidle]
    constructor <;> simp +contextual [Locks, ClientPc.holds, ClientPc.terminating]
  | client t hstep =>
    refine hi.client (clientStep_effect hstep) ?_
    rintro hpc rfl -
    exact hc t ⟨hpc, _, hpc ▸ hstep, rfl⟩
  | worker hpc hstep =>
    have he := workerStep_effect hstep
    have hown := hi.worker_holds _ hpc
    constructor
    · intro u hu
      exact he.locks.keeps (by simp) hown (hi.client_holds u hu)
    · intro p hp hholds
      obtain rfl := Option.some.inj hp
      exact he.locks.own hown hholds
    · intro u hu
      have hnone := hi.spawn u hu
      rw [hpc] at hnone
      cases hnone
    · intro u hu
      obtain ⟨hstate, p, hp, hparked⟩ := hi.killed u hu
      obtain rfl := Option.some.inj (hpc.symm.trans hp)
      obtain ⟨hstate', hparked'⟩ := he.parked hstate hparked
      exact ⟨hstate', _, rfl, hparked'⟩
    · exact hi.one

theorem CarefullyReached.inv (h : CarefullyReached w) : Inv w := by
  induction h with
  | refl => exact Inv.init
  | tail _ hstep ih => exact ih.step hstep.1 hstep.2

/-- While `Killing` is stored nobody stores it anew. -/
lemma Inv.careful (hi : Inv w) (ht : (w.client t).terminating = true) : Careful w w' := by
  intro u _
  exact (hi.killed t ht).2

/-- From a careful kill on, the worker is parked until `m_work` is reset. -/
lemma Inv.during {a : Config Thread} (hi : Inv w) (ht : (w.client t).terminating = true)
    (h : During t w a) : Inv a ∧ (a.client t).terminating = true := by
  induction h with
  | refl => exact ⟨hi, ht⟩
  | tail _ hstep ih => exact ⟨ih.1.step hstep.1 (ih.1.careful ih.2), hstep.2⟩

/-- The property: `m_state` remains `Killing` and the worker thread does not enter `workLoop`. -/
def StaysKilled (t : Thread) (w : Config Thread) : Prop :=
  ∀ a, During t w a → a.shared.m_state = .killing ∧ ∀ b, Step a b → ¬ Enters a b

lemma Inv.staysKilled (hi : Inv w) (ht : (w.client t).terminating = true) : StaysKilled t w := by
  intro a ha
  obtain ⟨hia, hta⟩ := hi.during ht ha
  obtain ⟨hstate, p, hp, hparked⟩ := hia.killed t hta
  refine ⟨hstate, ?_⟩
  rintro b - ⟨henter, -⟩
  obtain rfl := Option.some.inj (hp.symm.trans henter)
  cases hparked

/-! ### A worker that is not parked -/

omit [DecidableEq Thread] in
/-- The step that stores `Killing`. -/
lemma kill_eq {g g' : Shared Thread} (h : clientStep t g .terminate = some (.join, g')) :
    ∃ p, g.m_work = some p ∧ g' = ⟨.killing, some p, none⟩ := by
  simp only [clientStep] at h
  split at h
  · rename_i p hp
    split at h <;> cases h
    exact ⟨p, hp, by simp [Shared.release, hp]⟩
  · cases h

/-- The worker thread makes a step while `t` waits for it. -/
lemma During.worker {a : Config Thread} {p p' : WorkerPc} {g : Shared Thread} (h : During t w a)
    (ht : (a.client t).terminating = true) (hp : a.shared.m_work = some p)
    (hstep : workerStep a.shared p = some (p', g)) :
    During t w ⟨{ g with m_work := some p' }, a.client⟩ :=
  h.tail ⟨.worker hp hstep, ht⟩

/-- A worker at work replaces `Killing` when it returns. -/
lemma not_staysKilled_lockStop {c : Thread → ClientPc} (ht : (c t).terminating = true)
    (h : During t w ⟨⟨.killing, some .lockStop, none⟩, c⟩) : ¬ StaysKilled t w := by
  intro hstays
  have h₁ := h.worker ht rfl rfl
  have h₂ := h₁.worker ht rfl rfl
  exact absurd (hstays _ h₂).1 (by simp)

/-- A worker that is not parked when `Killing` is stored does not stay killed. -/
lemma not_staysKilled {c : Thread → ClientPc} {p : WorkerPc} (ht : (c t).terminating = true)
    (hparked : p.parked = false) (hholds : p.holds = false) :
    ¬ StaysKilled t ⟨⟨.killing, some p, none⟩, c⟩ := by
  have hrefl : During t ⟨⟨.killing, some p, none⟩, c⟩ ⟨⟨.killing, some p, none⟩, c⟩ := .refl
  cases p with
  | lockStart =>
    -- `Started` is stored without another look
    intro hstays
    have h₁ := hrefl.worker ht rfl rfl
    have h₂ := h₁.worker ht rfl rfl
    exact absurd (hstays _ h₂).1 (by simp [Shared.release])
  | enter =>
    intro hstays
    exact (hstays _ hrefl).2 _ (.worker rfl rfl) ⟨rfl, rfl⟩
  | work => exact not_staysKilled_lockStop ht (hrefl.worker ht rfl rfl)
  | lockStop => exact not_staysKilled_lockStop ht hrefl
  | store | exchange | restore => cases hholds
  | test | lockWait | check | waiting | done | joined => cases hparked

/-- **When the worker stays killed.** In a run in which every earlier `terminate` stored `Killing`
while the worker was parked, let `t` store it. Until that call resets `m_work` the state remains
`Killing` and the worker thread does not enter `workLoop`, whatever the threads do, exactly if the
worker is parked then, too: it has returned from its work and has not passed the test of its loop
since. -/
theorem killed_iff (hr : CarefullyReached w) (hk : Kills t w w') :
    StaysKilled t w' ↔ ∃ p, w.shared.m_work = some p ∧ p.parked = true := by
  obtain ⟨hpc, g, hstep, rfl⟩ := hk
  have hi := hr.inv
  have ht : ((update w.client t .join) t).terminating = true := by
    rw [update_self]
    rfl
  constructor
  · intro hstays
    obtain ⟨p, hp, rfl⟩ := kill_eq hstep
    refine ⟨p, hp, ?_⟩
    by_contra hparked
    refine not_staysKilled ht (Bool.eq_false_iff.mpr hparked) ?_ hstays
    -- the mutex is owned by `t`
    by_contra hholds
    have h₁ := hi.worker_holds p hp (Bool.not_eq_false _ ▸ hholds)
    have h₂ := hi.client_holds t (by rw [hpc]; rfl)
    rw [h₁] at h₂
    cases h₂
  · rintro ⟨p, hp, hparked⟩
    have hstep' : Step w ⟨g, update w.client t .join⟩ := .client t (hpc ▸ hstep)
    exact (hi.step hstep' fun _ _ => ⟨p, hp, hparked⟩).staysKilled ht

/-! ### A run with two threads -/

section Run

lemma careful_of_forall (h : ∀ t, w.client t ≠ .terminate) : Careful w w' :=
  fun t hk => absurd hk.1 (h t)

/-- One thread has created the worker thread and waits for it; another one is about to call
`terminate`. The worker thread is at the test of its loop, or behind it. -/
def spawned (pc : WorkerPc) : Config Bool :=
  ⟨⟨.starting, some pc, none⟩, fun t => if t then .startWait else .lock .terminate⟩

lemma spawned_reached : CarefullyReached (spawned .test) := by
  have h₀ : CarefullyReached (.init : Config Bool) := .refl
  have h₁ := h₀.tail ⟨.call true .startWorking rfl, careful_of_forall (by decide)⟩
  have h₂ := h₁.tail ⟨.client true rfl, careful_of_forall (by decide)⟩
  have h₃ := h₂.tail ⟨.client true rfl, careful_of_forall (by decide)⟩
  have h₄ := h₃.tail ⟨.client true rfl, careful_of_forall (by decide)⟩
  have h₅ := h₄.tail ⟨.client true rfl, careful_of_forall (by decide)⟩
  have h₆ := h₅.tail ⟨.call false .terminate rfl, careful_of_forall (by decide)⟩
  refine Eq.subst (motive := CarefullyReached) ?_ h₆
  refine congrArg (Config.mk _) (funext fun t => ?_)
  cases t <;> rfl

/-- The worker thread passes its test. -/
lemma spawned_reached_lockStart : CarefullyReached (spawned .lockStart) := by
  have hstep : Step (spawned .test) (spawned .lockStart) :=
    @Step.worker _ _ (spawned .test) .test .lockStart _ rfl rfl
  exact spawned_reached.tail ⟨hstep, careful_of_forall (by decide)⟩

/-- `terminate` takes the mutex. -/
def locked (pc : WorkerPc) : Config Bool :=
  ⟨⟨.starting, some pc, some (some false)⟩, update (spawned pc).client false .terminate⟩

lemma locked_step (pc : WorkerPc) (h : CarefullyReached (spawned pc)) :
    CarefullyReached (locked pc) := by
  have hstep : Step (spawned pc) (locked pc) := @Step.client _ _ (spawned pc) false .terminate _ rfl
  refine h.tail ⟨hstep, careful_of_forall fun t => ?_⟩
  cases t <;> simp [spawned]

/-- The state in which `Killing` is stored. -/
def killed (pc : WorkerPc) : Config Bool :=
  ⟨⟨.killing, some pc, none⟩, update (locked pc).client false .join⟩

lemma locked_kills (pc : WorkerPc) : Kills false (locked pc) (killed pc) := ⟨rfl, _, rfl, rfl⟩

theorem killed_iff_spawned :
    CarefullyReached (locked .test) ∧ Kills false (locked .test) (killed .test) ∧
    (StaysKilled false (killed .test) ↔
      ∃ p, (locked .test).shared.m_work = some p ∧ p.parked = true) :=
  ⟨locked_step _ spawned_reached, locked_kills _,
    killed_iff (locked_step _ spawned_reached) (locked_kills _)⟩

/-- The worker thread has passed its test when `Killing` is stored: it stores `Started` and works,
while `terminate` waits for it to end. -/
theorem killed_worker_works : CarefullyReached (locked .lockStart) ∧
    Kills false (locked .lockStart) (killed .lockStart) ∧
    ∃ a, During false (killed .lockStart) a ∧ a.shared.m_state = .started ∧
      a.shared.m_work = some .work := by
  have ht : ((killed .lockStart).client false).terminating = true := rfl
  have h₀ : During false (killed .lockStart) (killed .lockStart) := .refl
  have h₁ := h₀.worker ht rfl rfl
  have h₂ := h₁.worker ht rfl rfl
  have h₃ := h₂.worker ht rfl rfl
  exact ⟨locked_step _ spawned_reached_lockStart, locked_kills _, _, h₃, rfl, rfl⟩

end Run

end Tos.Worker
