import Offside.Run.Store

/-!
# The state of a run

A machine holds everything that a running program can see or change: the frames, the frame it runs
in, how deep calls are nested, what it has written, and its clock. A step of a run takes a machine
to its next state, with a result or an error; a third outcome is kept apart, that the steps granted
to the run are used up.
-/

namespace Offside

open RuntimeError (Cause)

/-! ## Output -/

/-- A sink has no room for all of the bytes. -/
def SinkError.full : SinkError := ⟨"sink is full"⟩

/-- A sink is one that cannot be flushed. -/
def SinkError.cannotFlush : SinkError := ⟨"sink cannot flush"⟩

namespace Sink

/-- What a sink has come to: the bytes that it has taken, and whatever else it remembers of what was
asked of it, as a number. -/
structure State where
  written : ByteArray
  memory : Nat

def State.empty : State := ⟨.empty, 0⟩

/-- A write that fails: how many of the bytes were taken before, and what is said about it. -/
structure Refusal where
  taken : Nat
  error : SinkError

def taken (bytes : ByteArray) : Option Refusal → ByteArray
  | none => bytes
  | some r => bytes.extract 0 r.taken

/-- What a sink does with bytes: what it remembers from then on, and its refusal, if it does not
take them all. -/
def Writing : Type := State → ByteArray → Nat × Option Refusal

/-- What a sink does when it is flushed: what it remembers from then on, and the error, if there is
one. -/
def Flushing : Type := State → Nat × Option SinkError

end Sink

/-- Where output goes. Each write and each flush may work or fail, with any error, and this may
depend on all that was asked of the sink before. -/
structure Sink where
  state : Sink.State
  writing : Sink.Writing
  flushing : Sink.Flushing

namespace Sink

def written (s : Sink) : ByteArray := s.state.written

def writeBytes (s : Sink) (bytes : ByteArray) : Sink × Option SinkError :=
  let reply := s.writing s.state bytes
  ({ s with state := ⟨s.written ++ taken bytes reply.2, reply.1⟩ }, reply.2.map Refusal.error)

/-- Writes a text, as UTF-8. -/
def write (s : Sink) (text : String) : Sink × Option SinkError := s.writeBytes text.toUTF8

def flush (s : Sink) : Sink × Option SinkError :=
  let reply := s.flushing s.state
  ({ s with state := ⟨s.written, reply.1⟩ }, reply.2)

/-! ### Sinks with a bound -/

/-- Takes what fits into the room that there is in all. -/
def Writing.upTo (capacity : Option Nat) : Writing := fun s bytes =>
  match capacity with
  | none => (s.memory, none)
  | some c =>
    let room := c - s.written.size
    (s.memory, if bytes.size ≤ room then none else some ⟨room, .full⟩)

/-- Fails each time, or never. -/
def Flushing.failing (fails : Bool) : Flushing := fun s =>
  (s.memory, if fails then some .cannotFlush else none)

instance : Coe (Option Nat) Writing := ⟨Writing.upTo⟩

instance : Coe Bool Flushing := ⟨Flushing.failing⟩

def unlimited : Sink := ⟨.empty, (none : Option Nat), false⟩

end Sink

/-! ## Machines -/

/-- The state of a run. -/
structure Machine where
  store : Store
  /-- The frame that names are looked up from. -/
  current : FrameId
  /-- How many declared commands are running. -/
  depth : Nat
  /-- How many declared commands may run at once. -/
  limit : Nat
  sink : Sink
  /-- The number of the next command value. -/
  nextIdentity : Nat
  /-- What the clock shows, reading by reading. -/
  readings : Nat → Float
  /-- How often the clock has been read. -/
  readCount : Nat

/-- The call depth that is allowed unless another is asked for. -/
def defaultLimit : Nat := 256

/-! ## Steps -/

/-- How a step ends: with a result, with an error, or not within the steps granted. -/
inductive Outcome (α : Type)
  | done (value : α) (m : Machine)
  | failed (e : RuntimeError) (m : Machine)
  | exhausted

/-- A step of a run. -/
def Run (α : Type) : Type := Machine → Outcome α

namespace Run

variable {α β : Type}

@[always_inline, inline]
protected def pure (a : α) : Run α := fun m => .done a m

/-- One step and then another that depends on its result. An error ends both. -/
@[always_inline, inline]
protected def bind (x : Run α) (f : α → Run β) : Run β := fun m =>
  match x m with
  | .done a m' => f a m'
  | .failed e m' => .failed e m'
  | .exhausted => .exhausted

@[always_inline, inline]
instance : Monad Run where
  pure := Run.pure
  bind := Run.bind

@[always_inline, inline]
def fail (cause : Cause) (pos : Option Position) : Run α := fun m => .failed ⟨cause, pos⟩ m

/-- The step that never gets to its end. -/
@[always_inline, inline]
def exhaust : Run α := fun _ => .exhausted

/-- A result of an operation at a position. -/
@[always_inline, inline]
def ofExcept (pos : Option Position) : Except Cause α → Run α
  | .ok a => Run.pure a
  | .error cause => fail cause pos

/-- Gives the errors of a step a position, unless they have one. -/
@[always_inline, inline]
def located (p : Position) (x : Run α) : Run α := fun m =>
  match x m with
  | .failed e m' => .failed (e.within p) m'
  | r => r

/-! ## Names -/

def lookup? (x : String) : Run (Option Value) := fun m => .done (m.store.get? m.current x) m

def declareIn (f : FrameId) (n : Name) (v : Value) : Run Unit := fun m =>
  match m.store.local? f n.text with
  | some _ => .failed ⟨.alreadyDefined n.text, some n.pos⟩ m
  | none => .done () { m with store := m.store.bind f n.text v }

def declare (n : Name) (v : Value) : Run Unit := fun m => declareIn m.current n v m

def assign (n : Name) (v : Value) : Run Unit := fun m =>
  match m.store.resolve m.current n.text with
  | none => .failed ⟨.undefinedVariable n.text, some n.pos⟩ m
  | some g => .done () { m with store := m.store.rebind g n.text v }

def newCommand (c : Command) : Run Value := fun m =>
  .done (.command m.nextIdentity c) { m with nextIdentity := m.nextIdentity + 1 }

/-- A new command that is declared in the current frame. -/
def closure (d : Definition) : Run Value := fun m => newCommand (.defined d m.current) m

/-! ## Frames and depth -/

/-- A new frame enclosed by `home`. -/
def openFrame (home : FrameId) : Run FrameId := fun m =>
  .done m.store.next { m with store := m.store.push ⟨some home, []⟩ }

/-- Binds parameters to arguments in a frame. -/
def bindParams (f : FrameId) : List Name → List Value → Run Unit
  | n :: ns, v :: vs => do
    declareIn f n v
    bindParams f ns vs
  | _, _ => return ()

/-- Runs a step in a frame, and comes back from it however the step ends. -/
@[always_inline, inline]
def inFrame (f : FrameId) (x : Run α) : Run α := fun m =>
  let previous := m.current
  match x { m with current := f } with
  | .done a m' => .done a { m' with current := previous }
  | .failed e m' => .failed e { m' with current := previous }
  | .exhausted => .exhausted

/-- Runs a step one call deeper, if the limit allows it. -/
@[always_inline, inline]
def nested (x : Run α) : Run α := fun m =>
  if m.limit ≤ m.depth then .failed ⟨.recursionLimit m.limit, none⟩ m
  else
    match x { m with depth := m.depth + 1 } with
    | .done a m' => .done a { m' with depth := m'.depth - 1 }
    | .failed e m' => .failed e { m' with depth := m'.depth - 1 }
    | .exhausted => .exhausted

/-! ## Output and clock -/

/-- Asks something of the sink. -/
def request (ask : Sink → Sink × Option SinkError) : Run Unit := fun m =>
  let reply := ask m.sink
  match reply.2 with
  | none => .done () { m with sink := reply.1 }
  | some e => .failed ⟨.output e, none⟩ { m with sink := reply.1 }

def write (text : String) : Run Unit := request (·.write text)

def flush : Run Unit := request Sink.flush

def readClock : Run Float := fun m =>
  .done (m.readings m.readCount) { m with readCount := m.readCount + 1 }

end Run

end Offside
