/-!
# vCPU status and its transitions

`vcpu_go` and `vcpu_suspend` are a `switch` over `vcpu->status`: each case sets
the new status and makes some calls into the thread layer.  They are written
here as functions from the status to the new status and the calls, so that
every model that contains a vCPU runs the same two switches.
-/

namespace RtHypervisor.Ports.Vcpu

/-- `VCPU_STATUS_*`. -/
inductive VcpuStatus
  | offline
  | online
  | suspend
  | neverRun
  | unknown
deriving DecidableEq, Repr

/-- The calls a case of the switches makes. -/
inductive ThreadCall
  | nothing
  | schedule
  | startup
  | resumeThenSchedule
  | suspendThenSchedule
deriving DecidableEq, Repr

/-- The switch of `vcpu_go`. -/
def vcpuGo : VcpuStatus → VcpuStatus × ThreadCall
  | .online => (.online, .schedule)
  | .offline => (.online, .startup)
  | .neverRun => (.online, .startup)
  | .suspend => (.online, .resumeThenSchedule)
  | .unknown => (.unknown, .nothing)

/-- The switch of `vcpu_suspend`. -/
def vcpuSuspend : VcpuStatus → VcpuStatus × ThreadCall
  | .online => (.suspend, .suspendThenSchedule)
  | .neverRun => (.neverRun, .nothing)
  | .offline => (.offline, .nothing)
  | .suspend => (.suspend, .nothing)
  | .unknown => (.unknown, .nothing)

theorem vcpuGo_ne_suspend (st : VcpuStatus) : (vcpuGo st).1 ≠ .suspend := by
  cases st <;> decide

end RtHypervisor.Ports.Vcpu
