import MirrorRust.Execution.State
import MirrorRust.Foundation.Transition

/-! One execution as a transition system. A step is one region in which a thread holds
the lock of the shared state, a call into the program, or a call by the owner. -/
namespace MirrorRust

/-- Where a worker thread stands. -/
inductive Pc
  | starting
  | barrier
  | running
  | arriving
  | returned (result : CallResult Unit)
  | exiting
  | terminated (panicked : Bool)
  deriving DecidableEq

/-- A spawned thread, and whether the execution still holds its handle. -/
structure Thread where
  id : ThreadId
  pc : Pc
  handle : Bool
  deriving DecidableEq

def Thread.isFinished (t : Thread) : Bool :=
  match t.pc with
  | .terminated _ => true
  | _ => false

/-- The function of the worker has been entered and has not returned. -/
def Pc.active : Pc → Bool
  | .running | .arriving => true
  | _ => false

def Thread.isActive (t : Thread) : Bool := t.pc.active

/-- The call that an observation belongs to. -/
inductive Caller
  | start
  | advance
  deriving DecidableEq

/-- Where the controller stands. -/
inductive Ctl
  | entering
  | creating
  | spawning (index : ℕ)
  | startWait
  | observing (caller : Caller)
  | callback (caller : Caller)
  | judging (caller : Caller) (result : CallResult Json)
  | outcomeCheck (caller : Caller)
  | waiting (index : ℕ) (requested : Step)
  | arrived (index : ℕ) (requested : Step)
  | joining (index : ℕ)
  | joinFailed
  | checkArrival
  | completing
  | cleaning
  | draining
  | reaping (index : ℕ)
  | tearing
  | recording (teardown : Option String)
  | idle
  | dropping (index : ℕ)
  | dropTeardown
  | dropped
  deriving DecidableEq

/-- The arguments of `start_schedule`, and what `serde_json` does after a pass through
the generic deserializer. -/
structure Setup where
  schedule : Schedule
  adapter : AdapterDeclaration
  policy : Policy
  serde : Serde

/-- A whole execution. `entered`, `teardowns` and `observed` only record what happened: the
workers whose function was entered, the results of the teardown callback, and the cancellation
flag at the last return of the observer. -/
structure World where
  setup : Setup
  cancelled : Bool
  shared : SharedState
  acquired : Bool
  threads : List Thread
  next : ℕ
  closed : Bool
  ctl : Ctl
  entered : List ℕ
  teardowns : List (CallResult Unit)
  observed : Option Bool

inductive FactoryResult
  | program (workers : List String)
  | error (e : String)
  | panic

inductive Action
  | cancel
  | enter (inCallback : Bool)
  | create (result : FactoryResult)
  | spawn (result : Except String ThreadId)
  | control (expired : Bool)
  | observer (result : CallResult Json)
  | teardown (result : CallResult Unit)
  | start (worker : ℕ)
  | wake (worker : ℕ)
  | arrive (thread : ThreadId) (worker : ℕ) (checkpoint : String)
  | returns (worker : ℕ) (result : CallResult Unit)
  | settle (worker : ℕ)
  | terminate (worker : ℕ) (panicked : Bool)
  | advance (requested : Step) (expired : Bool)
  | finish
  | cleanup (timeout : Duration)
  | drop
  | foreignCall

/-- The worker thread that takes the step. -/
def Action.worker? : Action → Option ℕ
  | .start i | .wake i | .arrive _ i _ | .returns i _ | .settle i | .terminate i _ => some i
  | _ => none

namespace World

def new (setup : Setup) (cancelled : Bool) (generation : ℕ) (executionId : String) : World :=
  { setup := setup
    cancelled := cancelled
    shared := { actors := [], stopping := false, report := .new generation executionId,
                evidenceBytes := 0 }
    acquired := false
    threads := []
    next := 0
    closed := false
    ctl := .entering
    entered := []
    teardowns := []
    observed := none }

def report (w : World) : Report := w.shared.report

def steps (w : World) : List Step := w.setup.schedule.steps

/-- The actors whose thread has not been joined. -/
def remaining (w : World) : List String :=
  ((w.setup.adapter.actors.zip w.threads).filter fun p => p.2.handle).map fun p => p.1.actor

def goto (w : World) (ctl : Ctl) : World := { w with ctl := ctl }

def fail (w : World) (outcome : Outcome) (detail : String) : World :=
  { w with shared := w.shared.fail outcome detail }

def setThread (w : World) (i : ℕ) (f : Thread → Thread) : World :=
  { w with threads := w.threads.modify i f }

def setPc (w : World) (i : ℕ) (pc : Pc) : World := w.setThread i fun t => { t with pc := pc }

/-- The lock of the shared state is held across the observer callback. -/
def locked (w : World) : Bool :=
  match w.ctl with
  | .callback _ | .judging _ _ => true
  | _ => false

/-! ### start_schedule -/

/-- The checks before the factory runs. -/
def admission (w : World) (inCallback : Bool) : Except (Outcome × String) Unit :=
  if inCallback then .error (.invalidSchedule, "scheduler callback reentry")
  else if w.cancelled then .error (.cancelled, "cancelled before acquisition")
  else admitSchedule w.setup.serde w.setup.schedule w.setup.adapter w.setup.policy

def enter (w : World) (inCallback : Bool) : World :=
  match w.admission inCallback with
  | .error (kind, message) => { (w.fail kind message).goto .idle with closed := true }
  | .ok () => w.goto .creating

/-- The checks that `cleanup` makes before its first region. -/
def callCleanup (w : World) (timeout : Duration) : World :=
  if !budget timeout ∨ w.closed then w.goto .idle else w.goto .cleaning

def newActor (a : ActorDeclaration) : Actor :=
  { declaration := a, phase := .starting, checkpoint := "$start", thread := none }

/-- The next actor to spawn, or the wait for all of them. -/
def spawnFrom (w : World) (index : ℕ) : World :=
  w.goto (if index < w.setup.adapter.actors.length then .spawning index else .startWait)

/-- The checks of the worker set of a new program. -/
def checkWorkers (w : World) (workers : List String) : World :=
  let w := if workers.Nodup then w else w.fail .applicationFailed "duplicate worker"
  if workers.dedup.length ≠ w.setup.adapter.actors.length ∨
      w.setup.adapter.actors.any (fun a => !workers.contains a.actor) then
    w.fail .applicationFailed "factory worker set differs"
  else w

/-- The shared state learns the actors, and their threads are spawned. -/
def declare (w : World) : World :=
  spawnFrom { w with shared := { w.shared with actors := w.setup.adapter.actors.map newActor } } 0

/-- A program has been acquired: it is taken apart or given up. -/
def acquire (w : World) (workers : List String) : World :=
  let w := checkWorkers { w with acquired := true } workers
  if w.report.outcome ≠ .completed then w.callCleanup w.setup.policy.cleanupTimeout
  else w.declare

def create (w : World) : FactoryResult → World
  | .error e => { (w.fail .applicationFailed e).goto .idle with closed := true }
  | .panic => { (w.fail .applicationFailed "factory panicked").goto .idle with closed := true }
  | .program workers => w.acquire workers

def spawn (w : World) (index : ℕ) (result : Except String ThreadId) : World :=
  match result with
  | .ok id =>
    spawnFrom { w with threads := w.threads ++ [{ id := id, pc := .starting, handle := true }] }
      (index + 1)
  | .error e => (w.fail .resourceFailed e).goto .startWait

def startWait (w : World) (expired : Bool) : World :=
  match w.shared.waitFor w.cancelled expired SharedState.allParked with
  | (s, some true) => { w with shared := s }.goto (.observing .start)
  | (s, some false) => { w with shared := s }.goto (.outcomeCheck .start)
  | (s, none) => { w with shared := s }

/-! ### observe -/

def observe (w : World) (caller : Caller) : World :=
  if w.shared.stopping then w.goto (.outcomeCheck caller)
  else if !w.shared.quiescent then
    (w.fail .observationFailed "actors not quiescent").goto (.outcomeCheck caller)
  else w.goto (.callback caller)

def observer (w : World) (caller : Caller) (result : CallResult Json) : World :=
  { w with observed := some w.cancelled }.goto (.judging caller result)

def judge (w : World) (caller : Caller) (result : CallResult Json) (expired : Bool) : World :=
  { w with shared := w.shared.judge w.setup.serde w.cancelled expired w.next result }.goto (.outcomeCheck caller)

/-- The outcome check at the end of `start_schedule` and `advance`. -/
def outcomeCheck (w : World) (caller : Caller) : World :=
  if w.report.outcome ≠ .completed then w.callCleanup w.setup.policy.cleanupTimeout
  else if caller = .advance ∧ w.next = w.steps.length then w.goto .completing
  else w.goto .idle

/-! ### advance -/

def advance (w : World) (requested : Step) (expired : Bool) : World :=
  if w.closed ∨ w.report.outcome ≠ .completed then w
  else
    match w.shared.permit w.cancelled expired w.steps w.next requested with
    | (s, some index) => { w with shared := s }.goto (.waiting index requested)
    | (s, none) => { w with shared := s }.goto (.outcomeCheck .advance)

def wait (w : World) (index : ℕ) (requested : Step) (expired : Bool) : World :=
  match w.shared.waitFor w.cancelled expired (SharedState.notRunning index) with
  | (s, some true) => { w with shared := s }.goto (.arrived index requested)
  | (s, some false) => { w with shared := s }.goto (.outcomeCheck .advance)
  | (s, none) => { w with shared := s }

def arrival (w : World) (index : ℕ) (requested : Step) : World :=
  let (s, finished) := w.shared.arrival w.next index requested
  { w with shared := s }.goto (if finished then .joining index else .checkArrival)

/-- `handle.join()`; it blocks until the thread has ended. -/
def join (w : World) (index : ℕ) : Option World :=
  match w.threads[index]? with
  | none => some (w.goto .checkArrival)
  | some t =>
    if !t.handle then some (w.goto .checkArrival)
    else
      match t.pc with
      | .terminated panicked =>
        some ((w.setThread index fun t => { t with handle := false }).goto
          (if panicked then .joinFailed else .checkArrival))
      | _ => none

def checkArrival (w : World) : World :=
  if w.report.outcome = .completed then
    { w with next := w.next + 1 }.goto (.observing .advance)
  else w.goto (.outcomeCheck .advance)

def complete (w : World) : World :=
  let report := { w.report with scheduleCompleted := true }
  callCleanup { w with shared := { w.shared with report := report } } w.setup.policy.cleanupTimeout

/-! ### finish and cleanup -/

def finish (w : World) : World :=
  if w.closed then w
  else
    let w :=
      if w.next ≠ w.steps.length then
        w.fail .invalidSchedule "execution finished before all intervals"
      else w
    w.callCleanup w.setup.policy.cleanupTimeout

def clean (w : World) : World := { w with shared := w.shared.beginCleanup }.goto .draining

def drain (w : World) (expired : Bool) : World :=
  if w.threads.any (fun t => t.handle && !t.isFinished) && !expired then w
  else w.goto (.reaping 0)

def reap (w : World) (index : ℕ) : World :=
  if index < w.threads.length then
    (w.setThread index fun t => if t.isFinished then { t with handle := false } else t).goto
      (.reaping (index + 1))
  else if w.remaining ≠ [] then
    { w with shared := w.shared.recordIncomplete w.remaining }.goto .idle
  else if w.acquired then w.goto .tearing
  else w.goto (.recording none)

def record (w : World) (teardown : Option String) : World :=
  { w with closed := true, shared := w.shared.recordCleanup w.acquired teardown }.goto .idle

def teardown (w : World) (result : CallResult Unit) (ctl : Ctl) : World :=
  { w with teardowns := w.teardowns ++ [result] }.goto ctl

/-! ### Drop -/

def drop (w : World) : World :=
  { w with shared := { w.shared with stopping := true } }.goto (.dropping 0)

def dropJoin (w : World) (index : ℕ) : Option World :=
  match w.threads[index]? with
  | none => some (w.goto (if !w.closed && w.acquired then .dropTeardown else .dropped))
  | some t =>
    if t.handle && !t.isFinished then none
    else some ((w.setThread index fun t => { t with handle := false }).goto (.dropping (index + 1)))

/-! ### Workers -/

/-- The first region of a worker: it registers, and returns at once when it has to stop. -/
def startWorker (w : World) (i : ℕ) (t : Thread) : World :=
  { w with shared := w.shared.register i t.id }.setPc i
    (if w.shared.stopping then .returned (.ok ()) else .barrier)

/-- A worker that waits at the start barrier or inside `arrive` looks at the shared state. -/
def wake (w : World) (i : ℕ) (t : Thread) : Option World :=
  if t.pc = .barrier then
    if w.shared.stopping then some (w.setPc i (.returned (.ok ())))
    else if w.shared.phase? i = some .running then
      some ({ w with entered := i :: w.entered }.setPc i .running)
    else some w
  else if t.pc = .arriving then
    if w.shared.stopping ∨ w.shared.phase? i = some .running then some (w.setPc i .running)
    else some w
  else none

/-- A call of `arrive` on the checkpoint handle of worker `i`. The handle is borrowed by the
function of the worker, so another thread can only call while that function is active. -/
def arrive (w : World) (thread : ThreadId) (i : ℕ) (t : Thread) (checkpoint : String) :
    Option World :=
  if thread = t.id ∧ t.pc ≠ .running ∨ !t.isActive then none
  else
    match w.shared.arrive w.setup.adapter.checkpoints i thread checkpoint with
    | (s, true) => some ({ w with shared := s }.setPc i .arriving)
    | (s, false) => some { w with shared := s }

def settle (w : World) (i : ℕ) (t : Thread) : Option World :=
  match t.pc with
  | .returned result => some ({ w with shared := w.shared.settle i result }.setPc i .exiting)
  | _ => none

def worker (w : World) (i : ℕ) (t : Thread) : Action → Option World
  | .start _ => if t.pc = .starting ∧ !w.locked then some (w.startWorker i t) else none
  | .wake _ => if w.locked then none else w.wake i t
  | .arrive thread _ checkpoint => if w.locked then none else w.arrive thread i t checkpoint
  | .returns _ result => if t.pc = .running then some (w.setPc i (.returned result)) else none
  | .settle _ => if w.locked then none else w.settle i t
  | .terminate _ panicked =>
    if t.pc = .exiting then some (w.setPc i (.terminated panicked)) else none
  | _ => none

/-! ### The step function -/

/-- The next region of the controller. -/
def control (w : World) (expired : Bool) : Option World :=
  match w.ctl with
  | .startWait => some (w.startWait expired)
  | .observing caller => some (w.observe caller)
  | .judging caller result => some (w.judge caller result expired)
  | .outcomeCheck caller => some (w.outcomeCheck caller)
  | .waiting index requested => some (w.wait index requested expired)
  | .arrived index requested => some (w.arrival index requested)
  | .joining index => w.join index
  | .joinFailed => some ((w.fail .applicationFailed "worker exit panicked").goto .checkArrival)
  | .checkArrival => some w.checkArrival
  | .completing => some w.complete
  | .cleaning => some w.clean
  | .draining => some (w.drain expired)
  | .reaping index => some (w.reap index)
  | .recording teardown => some (w.record teardown)
  | .dropping index => w.dropJoin index
  | _ => none

/-- The calls of the owner, which it makes one after the other. -/
def call (w : World) : Action → Option World
  | .advance requested expired => some (w.advance requested expired)
  | .finish => some w.finish
  | .cleanup timeout => some (w.callCleanup timeout)
  | .drop => some w.drop
  | .foreignCall => some w
  | _ => none

def step (w : World) (action : Action) : Option World :=
  match action with
  | .cancel => some { w with cancelled := true }
  | .enter inCallback => if w.ctl = .entering then some (w.enter inCallback) else none
  | .create result => if w.ctl = .creating then some (w.create result) else none
  | .spawn result =>
    match w.ctl with
    | .spawning index => some (w.spawn index result)
    | _ => none
  | .control expired => w.control expired
  | .observer result =>
    match w.ctl with
    | .callback caller => some (w.observer caller result)
    | _ => none
  | .teardown result =>
    match w.ctl with
    | .tearing => some (w.teardown result (.recording (SharedState.teardownError result)))
    | .dropTeardown => some (w.teardown result .dropped)
    | _ => none
  | .start i | .wake i | .arrive _ i _ | .returns i _ | .settle i | .terminate i _ =>
    w.threads[i]?.bind fun t => w.worker i t action
  | .advance .. | .finish | .cleanup _ | .drop | .foreignCall =>
    if w.ctl = .idle then w.call action else none

end World

/-- All executions of `start_schedule` and the calls that follow. -/
def execution : TransitionSystem World Action where
  init w := ∃ setup cancelled generation executionId,
    w = World.new setup cancelled generation executionId
  step := World.step

end MirrorRust
