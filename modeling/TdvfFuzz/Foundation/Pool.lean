import Mathlib.Data.List.Basic

/-!
# A thread pool whose jobs may wait for each other

Jobs are started in the order of a queue.  A job may name an earlier one as its
dependency: either the pool holds it back until that job has ended, or it is
queued at once and its body blocks for the result.  In both cases the pool is
never stuck while a job is unfinished.
-/

namespace TdvfFuzz.Foundation

universe u

inductive JobStatus where
  | pending
  | queued
  | running
  | done
  | failed
  deriving DecidableEq, Repr

namespace JobStatus

def finished : JobStatus → Bool
  | .done | .failed => true
  | _ => false

/-- What the status of a job says about the job it depends on. -/
def Follows (holds : Bool) : JobStatus → JobStatus → Prop
  | .queued, dep => dep ≠ .pending ∧ (holds = true → dep = .done)
  | .running, dep => dep ≠ .pending ∧ dep ≠ .queued ∧ (holds = true → dep = .done)
  | .done, dep => dep = .done
  | _, _ => True

inductive Advances : JobStatus → JobStatus → Prop
  | launched : Advances .pending .queued
  | dropped : Advances .pending .failed
  | started : Advances .queued .running
  | returned : Advances .running .done
  | raised : Advances .running .failed

theorem Advances.not_finished {status next : JobStatus} (h : Advances status next) :
    status.finished = false := by
  cases h <;> rfl

theorem Follows.advances {holds : Bool} {status dep next : JobStatus}
    (h : Follows holds status dep) (advances : Advances dep next) :
    Follows holds status next := by
  cases status <;> cases advances <;> simp_all [Follows]

def outstanding : JobStatus → ℕ
  | .pending => 3
  | .queued => 2
  | .running => 1
  | .done | .failed => 0

theorem Advances.outstanding_lt {status next : JobStatus} (h : Advances status next) :
    next.outstanding < status.outstanding := by
  cases h <;> decide

end JobStatus

structure Job (α : Type u) where
  app : α
  after : Option ℕ
  status : JobStatus
  deriving DecidableEq, Repr

structure Pool (α : Type u) where
  jobs : List (Job α)
  queue : List ℕ
  deriving DecidableEq, Repr

inductive PoolAction where
  | resolve (index : ℕ)
  | start
  | finish (index : ℕ) (returned : Bool)
  deriving DecidableEq, Repr

namespace Pool

variable {α : Type u}

def empty : Pool α := ⟨[], []⟩

def setStatus (jobs : List (Job α)) (index : ℕ) (status : JobStatus) : List (Job α) :=
  jobs.modify index fun j => { j with status }

def status (p : Pool α) (index : ℕ) : Option JobStatus := p.jobs[index]?.map Job.status

def runningCount (p : Pool α) : ℕ := p.jobs.countP fun j => j.status = .running

/-- A dependency keeps a job out of the queue of a pool that holds it back. -/
def submit (holds : Bool) (p : Pool α) (app : α) (after : Option ℕ) : Pool α :=
  if holds ∧ after.isSome then ⟨p.jobs ++ [⟨app, after, .pending⟩], p.queue⟩
  else ⟨p.jobs ++ [⟨app, after, .queued⟩], p.queue ++ [p.jobs.length]⟩

/-- The future of its dependency tells a waiting job that it has ended. -/
def resolveStep (p : Pool α) (index : ℕ) : Option (Pool α) :=
  match p.jobs[index]? with
  | none => none
  | some j =>
      match j.status, j.after.bind p.status with
      | .pending, some .done => some ⟨setStatus p.jobs index .queued, p.queue ++ [index]⟩
      | .pending, some .failed => some ⟨setStatus p.jobs index .failed, p.queue⟩
      | _, _ => none

def startStep (threads : ℕ) (p : Pool α) : Option (Pool α) :=
  match p.queue with
  | [] => none
  | index :: rest =>
      if p.runningCount < threads then some ⟨setStatus p.jobs index .running, rest⟩ else none

/-- A body that asks for its dependency's result blocks, and raises what that one raised. -/
def admits (p : Pool α) (j : Job α) (returned : Bool) : Bool :=
  match j.after with
  | none => true
  | some dependency =>
      match p.status dependency with
      | some .done => true
      | some .failed => !returned
      | _ => false

def finishStep (p : Pool α) (index : ℕ) (returned : Bool) : Option (Pool α) :=
  match p.jobs[index]? with
  | none => none
  | some j =>
      if j.status = .running ∧ p.admits j returned then
        some ⟨setStatus p.jobs index (if returned then .done else .failed), p.queue⟩
      else none

def step (threads : ℕ) (p : Pool α) : PoolAction → Option (Pool α)
  | .resolve index => resolveStep p index
  | .start => startStep threads p
  | .finish index returned => finishStep p index returned

/-! ## What the pool can do -/

inductive Move (threads : ℕ) (p : Pool α) : PoolAction → Pool α → Prop
  | launched (index : ℕ) (j : Job α) (waiting : p.jobs[index]? = some j)
      (pending : j.status = .pending) (ended : j.after.bind p.status = some .done) :
      Move threads p (.resolve index) ⟨setStatus p.jobs index .queued, p.queue ++ [index]⟩
  | dropped (index : ℕ) (j : Job α) (waiting : p.jobs[index]? = some j)
      (pending : j.status = .pending) (ended : j.after.bind p.status = some .failed) :
      Move threads p (.resolve index) ⟨setStatus p.jobs index .failed, p.queue⟩
  | started (index : ℕ) (rest : List ℕ) (first : p.queue = index :: rest)
      (idle : p.runningCount < threads) :
      Move threads p .start ⟨setStatus p.jobs index .running, rest⟩
  | returned (index : ℕ) (j : Job α) (picked : p.jobs[index]? = some j)
      (running : j.status = .running)
      (ended : ∀ d, j.after = some d → p.status d = some .done) :
      Move threads p (.finish index true) ⟨setStatus p.jobs index .done, p.queue⟩
  | raised (index : ℕ) (j : Job α) (picked : p.jobs[index]? = some j)
      (running : j.status = .running) :
      Move threads p (.finish index false) ⟨setStatus p.jobs index .failed, p.queue⟩

theorem admits_true {p : Pool α} {j : Job α} (h : p.admits j true) {d : ℕ}
    (after : j.after = some d) : p.status d = some .done := by
  simp only [admits, after] at h
  split at h
  case h_1 ended => exact ended
  case h_2 => contradiction
  case h_3 => contradiction

theorem step_move {threads : ℕ} {p p' : Pool α} {a : PoolAction}
    (h : step threads p a = some p') : Move threads p a p' := by
  cases a with
  | resolve index =>
      simp only [step, resolveStep] at h
      split at h
      case h_1 => contradiction
      case h_2 j waiting =>
        split at h
        case h_1 pending ended => exact Option.some.inj h ▸ .launched index j waiting pending ended
        case h_2 pending ended => exact Option.some.inj h ▸ .dropped index j waiting pending ended
        case h_3 => contradiction
  | start =>
      simp only [step, startStep] at h
      split at h
      case h_1 => contradiction
      case h_2 index rest first =>
        split at h
        case isTrue idle => exact Option.some.inj h ▸ .started index rest first idle
        case isFalse => contradiction
  | finish index returned =>
      simp only [step, finishStep] at h
      split at h
      case h_1 => contradiction
      case h_2 j picked =>
        split at h
        case isFalse => contradiction
        case isTrue ready =>
          cases returned with
          | true =>
              exact Option.some.inj h ▸ .returned index j picked ready.1
                fun d after => admits_true ready.2 after
          | false => exact Option.some.inj h ▸ .raised index j picked ready.1

/-! ## Jobs keep what they are -/

theorem getElem?_setStatus (jobs : List (Job α)) (index k : ℕ) (status : JobStatus) :
    (setStatus jobs index status)[k]? =
      jobs[k]?.map fun j => if index = k then { j with status } else j := by
  simp only [setStatus, List.getElem?_modify, Option.map_eq_map]

theorem map_setStatus {β : Type*} (f : Job α → β) (hf : ∀ j s, f { j with status := s } = f j)
    (jobs : List (Job α)) (index : ℕ) (status : JobStatus) :
    (setStatus jobs index status).map f = jobs.map f := by
  apply List.ext_getElem?
  intro k
  rw [List.getElem?_map, getElem?_setStatus, List.getElem?_map, Option.map_map]
  cases jobs[k]? with
  | none => rfl
  | some j =>
      by_cases h : index = k
      · simp [h, hf]
      · simp [h]

def after (p : Pool α) (index : ℕ) : Option ℕ := p.jobs[index]?.bind Job.after

theorem status_setStatus (p : Pool α) (queue : List ℕ) (index k : ℕ) {status : JobStatus}
    (next : JobStatus) (h : p.status index = some status) :
    (⟨setStatus p.jobs index next, queue⟩ : Pool α).status k =
      if k = index then some next else p.status k := by
  obtain ⟨j, hj, -⟩ := Option.map_eq_some_iff.mp h
  simp only [Pool.status, getElem?_setStatus, Option.map_map]
  by_cases hk : k = index
  · simp [hk, hj]
  · have hne : index ≠ k := fun h => hk h.symm
    simp only [hk, hne, if_false, Function.comp_def]

@[simp] theorem after_setStatus (p : Pool α) (queue : List ℕ) (index k : ℕ)
    (next : JobStatus) :
    (⟨setStatus p.jobs index next, queue⟩ : Pool α).after k = p.after k := by
  simp only [after, getElem?_setStatus, Option.bind_map, Function.comp_def]
  congr 1
  funext j
  split <;> rfl

theorem getElem?_concat_jobs (jobs : List (Job α)) (j : Job α) (k : ℕ) :
    (jobs ++ [j])[k]? = if k = jobs.length then some j else jobs[k]? := by
  by_cases hk : k = jobs.length
  · simp [hk]
  · rw [if_neg hk]
    rcases Nat.lt_or_gt_of_ne hk with h | h
    · exact List.getElem?_append_left h
    · rw [List.getElem?_eq_none (by simpa using Nat.succ_le_of_lt h),
        List.getElem?_eq_none (Nat.le_of_lt h)]

theorem exists_jobs_submit (holds : Bool) (p : Pool α) (app : α) (dependency : Option ℕ) :
    ∃ status, (p.submit holds app dependency).jobs = p.jobs ++ [⟨app, dependency, status⟩] := by
  unfold submit
  split <;> exact ⟨_, rfl⟩

@[simp] theorem runningCount_submit (holds : Bool) (p : Pool α) (app : α)
    (dependency : Option ℕ) : (p.submit holds app dependency).runningCount = p.runningCount := by
  unfold submit
  split <;> simp [runningCount]

theorem status_submit (holds : Bool) (p : Pool α) (app : α) (dependency : Option ℕ) (k : ℕ) :
    (p.submit holds app dependency).status k =
      if k = p.jobs.length then
        some (if holds ∧ dependency.isSome then .pending else .queued)
      else p.status k := by
  unfold submit
  split <;> simp only [Pool.status, getElem?_concat_jobs] <;> split <;> simp_all

theorem after_submit (holds : Bool) (p : Pool α) (app : α) (dependency : Option ℕ) (k : ℕ) :
    (p.submit holds app dependency).after k =
      if k = p.jobs.length then dependency else p.after k := by
  unfold submit
  split <;> simp only [after, getElem?_concat_jobs] <;> split <;> simp_all

end Pool

end TdvfFuzz.Foundation
