import LoopLowering.Output.Emit

/- Writing to a sink of bytes. A sink takes bytes a few at a time and may fail.
   `Sink.writeAll` offers what is left until all of it is taken. A `Stream` carries
   rendered text to a sink: it remembers the first error, writes nothing after it,
   and reports it when the stream is finished. -/
namespace LoopLowering

/-- Why a sink did not take what it was given. -/
inductive SinkError where
  | writeZero
  | other (message : String)
  deriving DecidableEq, Repr

def SinkError.message : SinkError → String
  | .writeZero => "failed to write whole buffer"
  | .other s => s

/-- What a sink with states in `σ` does when it is offered bytes, answering how many of them it took,
and when it is asked to flush. -/
structure Sink (σ : Type) where
  write : List UInt8 → σ → Except SinkError Nat × σ
  flush : σ → Except SinkError Unit × σ

namespace Sink

variable {σ : Type}

/-- Writes all the bytes: after a short write the rest is offered again, and a sink that takes none
of a rest that is not empty is an error. -/
def writeAll (k : Sink σ) (bytes : List UInt8) (s : σ) : Except SinkError Unit × σ :=
  match bytes with
  | [] => (.ok (), s)
  | b :: rest =>
    match k.write (b :: rest) s with
    | (.error e, s') => (.error e, s')
    | (.ok 0, s') => (.error .writeZero, s')
    | (.ok (n + 1), s') => k.writeAll (rest.drop n) s'
termination_by bytes.length
decreasing_by simp only [List.length_drop, List.length_cons]; omega

end Sink

/-- The pieces in which the step is written to a sink; spaces go out one by one. -/
def Emit.writes : Emit → List String
  | .text s => [s]
  | .newline => ["\n"]
  | .spaces n => List.replicate n " "

/-- Text on its way to a sink: the sink's state, and the first error. -/
structure Stream (σ : Type) where
  state : σ
  error : Option SinkError := none

namespace Stream

variable {σ : Type}

/-- Writes a text as bytes, unless an earlier write has failed. -/
def write (k : Sink σ) (st : Stream σ) (text : String) : Stream σ :=
  match st.error with
  | some _ => st
  | none =>
    match k.writeAll text.toUTF8.data.toList st.state with
    | (.ok (), s) => ⟨s, none⟩
    | (.error e, s) => ⟨s, some e⟩

def emit (k : Sink σ) (st : Stream σ) (e : Emit) : Stream σ :=
  e.writes.foldl (write k) st

def emitAll (k : Sink σ) (st : Stream σ) (es : List Emit) : Stream σ :=
  es.foldl (emit k) st

/-- Ends the stream: reports the first error, or else flushes the sink. -/
def finish (k : Sink σ) (st : Stream σ) : Except SinkError Unit × σ :=
  match st.error with
  | some e => (.error e, st.state)
  | none => k.flush st.state

end Stream

end LoopLowering
