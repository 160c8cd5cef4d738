import Offside.Value.Basic

/-!
# Frames

Names are bound in frames. A frame has its own bindings and may have an enclosing frame, where
names are looked up that it does not bind itself. Frames are shared, by the calls that run in them
and by the commands declared in them, so they live in one store and are known by their number.

The enclosing frame of a frame was there before it: the walk outwards goes to ever smaller numbers,
and ends.
-/

namespace Offside

open RuntimeError (Cause)

/-! ## Frames -/

/-- Bindings of names, and the frame to ask for other names. -/
structure Frame where
  enclosing : Option FrameId
  bindings : List (String × Value)

namespace Frame

def get? (f : Frame) (x : String) : Option Value := f.bindings.lookup x

def binds (f : Frame) (x : String) : Bool := (f.get? x).isSome

def bind (f : Frame) (x : String) (v : Value) : Frame := { f with bindings := (x, v) :: f.bindings }

/-- The frame with another value for a name it binds. -/
def rebind (f : Frame) (x : String) (v : Value) : Frame :=
  { f with bindings := f.bindings.map fun b => if b.1 == x then (b.1, v) else b }

/-- Binds a name, or rebinds it. -/
def put (f : Frame) (x : String) (v : Value) : Frame :=
  if f.binds x then f.rebind x v else f.bind x v

/-- A frame of its own with these bindings; of two for the same name the later one counts. -/
def ofList (bs : List (String × Value)) : Frame := bs.foldl (fun f b => f.put b.1 b.2) ⟨none, []⟩

end Frame

/-! ## Stores -/

/-- All frames, in the order they were made. -/
structure Store where
  frames : Array Frame

namespace Store

def empty : Store := ⟨#[]⟩

def next (s : Store) : FrameId := s.frames.size

def push (s : Store) (f : Frame) : Store := ⟨s.frames.push f⟩

def modify (s : Store) (f : FrameId) (g : Frame → Frame) : Store := ⟨s.frames.modify f g⟩

/-- The frame that a name is found in: the nearest that binds it, from `f` outwards. -/
def resolve (s : Store) (f : FrameId) (x : String) : Option FrameId :=
  match s.frames[f]? with
  | none => none
  | some frame =>
    if frame.binds x then some f
    else
      match frame.enclosing with
      | none => none
      | some g => if g < f then resolve s g x else none
termination_by f

/-- The value of a name in a frame itself. -/
def local? (s : Store) (f : FrameId) (x : String) : Option Value :=
  match s.frames[f]? with
  | none => none
  | some frame => frame.get? x

def get? (s : Store) (f : FrameId) (x : String) : Option Value :=
  match s.resolve f x with
  | none => none
  | some g => s.local? g x

def bind (s : Store) (f : FrameId) (x : String) (v : Value) : Store := s.modify f (·.bind x v)

/-- Gives a name another value in a frame that binds it. -/
def rebind (s : Store) (f : FrameId) (x : String) (v : Value) : Store := s.modify f (·.rebind x v)

/-- Declares a name in a frame. A name may hide one of an enclosing frame, but not stand twice in
the same. -/
def define (s : Store) (f : FrameId) (x : String) (v : Value) : Except Cause Store :=
  match s.local? f x with
  | some _ => .error (.alreadyDefined x)
  | none => .ok (s.bind f x v)

/-- Gives a declared name a new value, where it is found. -/
def assign (s : Store) (f : FrameId) (x : String) (v : Value) : Except Cause Store :=
  match s.resolve f x with
  | none => .error (.undefinedVariable x)
  | some g => .ok (s.rebind g x v)

end Store

end Offside
