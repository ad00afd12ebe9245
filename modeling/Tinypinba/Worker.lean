import Tinypinba.ReportContainer

/-! # The worker loop

`pinba_worker_loop` (`worker.cc`) receives packets and records them in its current report list; once
per period it swaps that list for an empty one. The loop is modelled as a program counter with the
local variables `reports` and `next`, one step for every clock reading, container call, `recv` and
visited request, so that other threads can act in between. The recursive `add_request_to_reports` is
its stack of requests still to visit. -/

namespace Tinypinba

variable {n : ℕ}

/-- `request_check`: the result, and the warning logged when it is `-1`; `none` is a `NULL` request,
which is refused silently. -/
def requestCheck (request : Option PinbaRequest) : ℤ × Option String :=
  match request with
  | none => (-1, none)
  | some request =>
    let timersCnt := request.nTimerHitCount
    if timersCnt ≠ request.nTimerValue ∨ timersCnt ≠ request.nTimerTagCount then
      (-1, some "malformed data: timer_hit_count_size != timer_value_size || timer_hit_count_size != timer_tag_count_size")
    else if request.nTagName ≠ request.nTagValue then
      (-1, some "malformed data: n_tag_name != n_tag_value")
    else if request.nDictionary = 0 ∧ 0 < timersCnt then
      (-1, some "malformed data: dict_size == 0, but timers_cnt > 0")
    else if request.nDictionary = 0 ∧ 0 < request.nTagName then
      (-1, some "malformed data: dict_size == 0, but tags are present")
    else (0, none)

/-- What `request_check` accepts: lengths that fit together, and a dictionary where there is something
to look up. It looks at no index. -/
theorem requestCheck_eq_zero_iff (request : PinbaRequest) :
    (requestCheck (some request)).1 = 0 ↔
      request.nTimerHitCount = request.nTimerValue ∧ request.nTimerHitCount = request.nTimerTagCount ∧
      request.nTagName = request.nTagValue ∧
      (request.nDictionary = 0 → request.nTimerHitCount = 0 ∧ request.nTagName = 0) := by
  simp only [requestCheck]
  split_ifs <;> simp <;> omega

/-- What `recv` and the unpacking of its buffer come to. -/
inductive RecvOutcome
  /-- A packet that decodes to a request. -/
  | decoded (request : PinbaRequest)
  /-- A packet that does not decode. -/
  | undecodable
  /-- `recv` failed with `EINTR`. -/
  | interrupted
  /-- `recv` failed otherwise. -/
  | failed
  /-- `recv` returned `0`. -/
  | empty

/-- Where the worker is in its loop. -/
inductive WorkerPc (n : ℕ)
  /-- At the top of the loop, about to read the clock. -/
  | top
  /-- The deadline has passed at `cur`; about to call `get_emty_list`. -/
  | rotate (cur : Timeval)
  /-- Holding `newList` beside the current list, about to call `return_full_list`. -/
  | swap (cur : Timeval) (newList : Fin n)
  /-- After the rotation, about to call `recv`. -/
  | recv
  /-- In `add_request_to_reports`, with these requests still to visit. -/
  | visit (todo : List PinbaRequest)

/-- The list taken from the container and not yet made the current one. -/
def WorkerPc.incoming : WorkerPc n → List (Fin n)
  | .swap _ newList => [newList]
  | _ => []

/-- The worker's control state and local variables. -/
structure Worker (n : ℕ) where
  /-- Where it is. -/
  pc : WorkerPc n
  /-- `reports`, its current list; `none` is `NULL`. -/
  reports : Option (Fin n)
  /-- `next`, when to rotate. -/
  next : Timeval

namespace Worker

/-- The worker when its thread starts. -/
def new : Worker n := ⟨.top, none, .zero⟩

/-- The end of a successful rotation: `reports = new_list; timeradd(&cur, period, &next)`. -/
def adopt (period cur : Timeval) (newList : Fin n) : Worker n :=
  ⟨.recv, some newList, timeradd cur period⟩

/-- The lists the worker holds: its current one and the one coming in. -/
def held (worker : Worker n) : List (Fin n) := worker.reports.toList ++ worker.pc.incoming

/-- A worker starts without a list. -/
@[simp] theorem held_new : (new : Worker n).held = [] := rfl

@[simp] theorem held_adopt (period cur : Timeval) (newList : Fin n) :
    (adopt period cur newList).held = [newList] := rfl

/-- The current list is one of the lists held. -/
theorem mem_held_of_reports {worker : Worker n} {chunk : Fin n}
    (h : worker.reports = some chunk) : chunk ∈ worker.held := by
  simp [held, h]

end Worker

end Tinypinba
