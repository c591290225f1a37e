import FlowRulZ.Executor.VM
import FlowRulZ.Lib.Chunks

/-! # The execution runtime

`ExecutionRuntime::execute` looks at the first instruction.  A buffer keeps the message for a batch, a
chunk runs the plan on the pieces of the body, and any other plan runs on the body.
-/

namespace FlowRulZ

/-- `serde_json::from_slice`, or `null`. -/
def Host.valueOrNull (host : Host) (bytes : Bytes) : Json :=
  match host.fromSlice bytes with
  | .ok value => value
  | .error _ => .null

/-- `merge_buffer_json`: an array is taken for a batch that was begun. -/
def mergeBufferJson (host : Host) (a b : Bytes) : Bytes :=
  match host.valueOrNull a with
  | .arr items => host.toVec (.arr (items ++ [host.valueOrNull b]))
  | value => host.toVec (.arr [value, host.valueOrNull b])

/-- `split_chunks`; it divides by the count. -/
def splitChunks (body : Bytes) (count : UInt8) (threshold : Nat) : Except (Fault String) (Option (List Bytes)) :=
  if body.length ≤ threshold then .ok none
  else if count = 0 then .error .panic
  else .ok (some (Chunks.chunks ((body.length + count.toNat - 1) / count.toNat) body))

/-- What the machines are created with, the calls they made, and the buffer. -/
structure ExecutionRuntime where
  machine : Runtime
  calls : List Call := []
  bufferBody : Bytes := []
  bufferCount : UInt8 := 0
  bufferTarget : UInt8 := 0

namespace ExecutionRuntime

variable (self : ExecutionRuntime)

/-- Returns whether the buffer is full. The count wraps. -/
def bufferPush (body : Bytes) : Bool × ExecutionRuntime :=
  if self.bufferTarget = 0 then (false, self)
  else
    let count := self.bufferCount + 1
    (self.bufferTarget ≤ count,
      { self with bufferBody := mergeBufferJson self.machine.host self.bufferBody body, bufferCount := count })

def bufferFlush : Bytes × ExecutionRuntime :=
  (self.bufferBody, { self with bufferBody := [], bufferCount := 0, bufferTarget := 0 })

/-- `saturating_sub`. -/
def bufferRemaining : Nat := self.bufferTarget.toNat - self.bufferCount.toNat

/-- The buffer after `execute` of a plan that begins with a buffer instruction. -/
def bufferFirst (first : Instruction) (body : Bytes) : ExecutionRuntime :=
  { self with bufferTarget := first.a.toUInt8, bufferBody := body, bufferCount := 1 }

/-- `run_vm` on a body returns with this result and these calls. -/
def RunsVm (rt : Runtime) (log : List Call) (body : Bytes) (result : Except (Fault String) Bytes) (log' : List Call) :
    Prop :=
  ∃ vm ended, (VM.runLoop rt).Halts ((VM.init (.fromBody body)).setCalls log) (vm, ended) ∧
    result = ended.map (fun _ => vm.ctx.body) ∧ log' = vm.calls

def RunsAll (rt : Runtime) : List Bytes → List Call → Except (Fault String) (List Bytes) → List Call → Prop
  | [], log, result, log' => result = .ok [] ∧ log' = log
  | chunk :: chunks, log, result, log' =>
    (∃ e, RunsVm rt log chunk (.error e) log' ∧ result = .error e) ∨
      ∃ out mid outs, RunsVm rt log chunk (.ok out) mid ∧ RunsAll rt chunks mid outs log' ∧ result = outs.map (out :: ·)

def joinChunks (host : Host) (results : List Bytes) : Bytes := host.toVec (.arr (results.map host.valueOrNull))

def RunsChunked (rt : Runtime) (count : UInt8) (log : List Call) (body : Bytes) (result : Except (Fault String) Bytes)
    (log' : List Call) : Prop :=
  match splitChunks body count (body.length / (max count 1).toNat) with
  | .error e => result = .error e ∧ log' = log
  | .ok none => RunsVm rt log body result log'
  | .ok (some chunks) => ∃ outs, RunsAll rt chunks log outs log' ∧ result = outs.map (joinChunks rt.host)

/-- `execute` on a body returns with this result, and leaves the runtime so. -/
inductive Executes (body : Bytes) : Except (Fault String) Bytes → ExecutionRuntime → Prop
  | buffer {first : Instruction} : self.machine.plan.instructions.head? = some first → first.op = .buffer →
      Executes body (.ok body) (self.bufferFirst first body)
  | chunk {first : Instruction} {result : Except (Fault String) Bytes} {log : List Call} :
      self.machine.plan.instructions.head? = some first → first.op = .chunk →
      RunsChunked self.machine first.a.toUInt8 self.calls body result log →
      Executes body result { self with calls := log }
  | run {result : Except (Fault String) Bytes} {log : List Call} :
      (∀ first ∈ self.machine.plan.instructions.head?, first.op ≠ .buffer ∧ first.op ≠ .chunk) →
      RunsVm self.machine self.calls body result log → Executes body result { self with calls := log }

section

variable {self} {rt : Runtime} {log log₁ log₂ : List Call}

variable {r₁ r₂ : Except (Fault String) Bytes} {body : Bytes}

theorem runsVm_unique (first : RunsVm rt log body r₁ log₁)
    (second : RunsVm rt log body r₂ log₂) : r₁ = r₂ ∧ log₁ = log₂ := by
  obtain ⟨vm₁, ended₁, halts₁, rfl, rfl⟩ := first
  obtain ⟨vm₂, ended₂, halts₂, rfl, rfl⟩ := second
  obtain ⟨rfl, rfl⟩ := Prod.mk.inj (halts₁.unique halts₂)
  exact ⟨rfl, rfl⟩

theorem runsAll_unique {chunks : List Bytes} {r₁ r₂ : Except (Fault String) (List Bytes)}
    (first : RunsAll rt chunks log r₁ log₁) (second : RunsAll rt chunks log r₂ log₂) : r₁ = r₂ ∧ log₁ = log₂ := by
  induction chunks generalizing log r₁ r₂ with
  | nil =>
    obtain ⟨rfl, rfl⟩ := first
    obtain ⟨rfl, rfl⟩ := second
    exact ⟨rfl, rfl⟩
  | cons chunk chunks ih =>
    rcases first with ⟨e₁, failed₁, rfl⟩ | ⟨out₁, mid₁, outs₁, ran₁, rest₁, rfl⟩ <;>
      rcases second with ⟨e₂, failed₂, rfl⟩ | ⟨out₂, mid₂, outs₂, ran₂, rest₂, rfl⟩ <;> grind [runsVm_unique]

theorem runsChunked_unique {count : UInt8}
    (first : RunsChunked rt count log body r₁ log₁) (second : RunsChunked rt count log body r₂ log₂) :
    r₁ = r₂ ∧ log₁ = log₂ := by
  unfold RunsChunked at first second
  revert first second
  rcases splitChunks body count (body.length / (max count 1).toNat) with e | _ | chunks <;> intro first second
  · obtain ⟨rfl, rfl⟩ := first
    obtain ⟨rfl, rfl⟩ := second
    exact ⟨rfl, rfl⟩
  · exact runsVm_unique first second
  · obtain ⟨outs₁, ran₁, rfl⟩ := first
    obtain ⟨outs₂, ran₂, rfl⟩ := second
    obtain ⟨rfl, rfl⟩ := runsAll_unique ran₁ ran₂
    exact ⟨rfl, rfl⟩

theorem Executes.unique {after₁ after₂ : ExecutionRuntime}
    (first : self.Executes body r₁ after₁) (second : self.Executes body r₂ after₂) : r₁ = r₂ ∧ after₁ = after₂ := by
  -- the first instruction tells which case it is
  cases first <;> cases second <;> grind [runsVm_unique, runsChunked_unique]

end

end ExecutionRuntime

end FlowRulZ
