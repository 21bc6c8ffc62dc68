import LoopLowering.Output.Sink
import LoopLowering.Text

/- Text on its way to a sink. Text goes out in pieces, and each piece is offered to
   the sink as bytes until all of it is taken. What a sink has received is seen through
   a function of its state.

   A sink whose single answers are true (`Sink.Lawful`) receives all bytes of a
   piece, or a part of them from the front when it fails (`Sink.Delivers`). From this alone
   follows what reaches the sink in a whole run: the bytes of the text, or those up to the
   first failure, after which nothing more is written (`stream_delivers_text`). -/
namespace LoopLowering

/-! ## Bytes and pieces -/

def utf8 (text : String) : List UInt8 :=
  text.toUTF8.data.toList

theorem utf8_append (text text' : String) : utf8 (text ++ text') = utf8 text ++ utf8 text' := by
  show (text ++ text').toByteArray.data.toList =
    text.toByteArray.data.toList ++ text'.toByteArray.data.toList
  rw [String.toByteArray_append, ByteArray.data_append, Array.toList_append]

/-- The pieces of a step make up what it adds to a buffer. -/
theorem Emit.join_writes (e : Emit) : String.join e.writes = e.toText := by
  rw [← String.toList_inj, String.toList_join]
  cases e with
  | text s => simp [writes, toText]
  | newline => rfl
  | spaces n => simp [writes, toText, List.flatMap_replicate]

theorem Emit.join_flatMap_writes (es : List Emit) :
    String.join (es.flatMap Emit.writes) = Emit.textOf es := by
  induction es with
  | nil => rfl
  | cons e es ih =>
    rw [List.flatMap_cons, String.join_append, ih, join_writes, Emit.textOf, Emit.textOf,
      List.map_cons, String.join_cons]

def Node.emits (style : TextStyle) (nodes : List Node) : List Emit :=
  Fragment.emitsAll style.indentSize (Node.layoutAll true nodes)

def Node.pieces (style : TextStyle) (nodes : List Node) : List String :=
  (Node.emits style nodes).flatMap Emit.writes

theorem Node.join_pieces (style : TextStyle) (nodes : List Node) :
    String.join (Node.pieces style nodes) = Node.rawText style nodes :=
  Emit.join_flatMap_writes _

/-! ## Sinks -/

namespace Sink

variable {σ : Type} (k : Sink σ) (received : σ → List UInt8)

/-- A single answer of the sink is true: it has received as many of the bytes as it says, and none
when it fails. -/
structure Lawful : Prop where
  took {bytes : List UInt8} {s t : σ} {n : Nat} :
    k.write bytes s = (.ok n, t) → n ≤ bytes.length ∧ received t = received s ++ bytes.take n
  failed {bytes : List UInt8} {s t : σ} {e : SinkError} :
    k.write bytes s = (.error e, t) → received t = received s

/-- Writing all bytes delivers all of them, or a part from the front and an error. -/
structure Delivers : Prop where
  all {bytes : List UInt8} {s t : σ} :
    k.writeAll bytes s = (.ok (), t) → received t = received s ++ bytes
  part {bytes : List UInt8} {s t : σ} {e : SinkError} :
    k.writeAll bytes s = (.error e, t) → ∃ part, part <+: bytes ∧ received t = received s ++ part

/-- The sink takes all the pieces, one after the other. -/
inductive Accepts : σ → List String → σ → Prop
  | nil (s : σ) : Accepts s [] s
  | cons {s t u : σ} {piece : String} {pieces : List String} :
    k.writeAll (utf8 piece) s = (.ok (), t) → Accepts t pieces u → Accepts s (piece :: pieces) u

variable {k received}

/-- What is left after a short write is offered again, so the parts that are taken make a prefix. -/
theorem Lawful.exists_part (h : k.Lawful received) (bytes : List UInt8) (s : σ) :
    ∃ part, part <+: bytes ∧ received (k.writeAll bytes s).2 = received s ++ part ∧
      ((k.writeAll bytes s).1 = .ok () → part = bytes) := by
  fun_induction Sink.writeAll k bytes s with
  | case1 s => exact ⟨[], List.nil_prefix, (List.append_nil _).symm, fun _ => rfl⟩
  | case2 s b rest e t hwrite =>
    exact ⟨[], List.nil_prefix, by rw [h.failed hwrite, List.append_nil], fun hok => by cases hok⟩
  | case3 s b rest t hwrite =>
    exact ⟨[], List.nil_prefix, (h.took hwrite).2, fun hok => by cases hok⟩
  | case4 s b rest n t hwrite ih =>
    obtain ⟨part, hpart, hreceived, hall⟩ := ih
    refine ⟨b :: rest.take n ++ part, ?_, ?_, fun hok => ?_⟩
    · obtain ⟨left, hleft⟩ := hpart
      refine ⟨left, ?_⟩
      rw [List.append_assoc, hleft, List.cons_append, List.take_append_drop]
    · rw [hreceived, (h.took hwrite).2, List.take_succ_cons, List.append_assoc]
    · rw [hall hok, List.cons_append, List.take_append_drop]

theorem Lawful.delivers (h : k.Lawful received) : k.Delivers received where
  all {bytes s t} hwrite := by
    obtain ⟨part, _, hreceived, hall⟩ := h.exists_part bytes s
    rw [hwrite] at hreceived hall
    rw [hreceived, hall rfl]
  part {bytes s t e} hwrite := by
    obtain ⟨part, hpart, hreceived, _⟩ := h.exists_part bytes s
    rw [hwrite] at hreceived
    exact ⟨part, hpart, hreceived⟩

theorem Accepts.received_eq (hk : k.Delivers received) {s t : σ} {pieces : List String}
    (h : k.Accepts s pieces t) : received t = received s ++ utf8 (String.join pieces) := by
  induction h with
  | nil s => exact (List.append_nil _).symm
  | cons hwrite _ ih =>
    rw [ih, hk.all hwrite, String.join_cons, utf8_append, List.append_assoc]

variable (k)

/-- The sink takes all the pieces, or there is a first one that it does not take. -/
theorem accepts_or_fails (s : σ) (pieces : List String) :
    (∃ t, k.Accepts s pieces t) ∨
    ∃ earlier piece later t e u, pieces = earlier ++ piece :: later ∧ k.Accepts s earlier t ∧
      k.writeAll (utf8 piece) t = (.error e, u) := by
  induction pieces generalizing s with
  | nil => exact .inl ⟨s, .nil s⟩
  | cons piece pieces ih =>
    cases hwrite : k.writeAll (utf8 piece) s with
    | mk result t =>
      cases result with
      | error e => exact .inr ⟨[], piece, pieces, s, e, t, rfl, .nil s, hwrite⟩
      | ok =>
        rcases ih t with ⟨u, hrest⟩ | ⟨earlier, last, later, u, e, v, rfl, hearlier, hlast⟩
        · exact .inl ⟨u, .cons hwrite hrest⟩
        · exact .inr ⟨piece :: earlier, last, later, u, e, v, rfl, .cons hwrite hearlier, hlast⟩

end Sink

/-! ## Streams -/

namespace Stream

variable {σ : Type} {k : Sink σ}

theorem emitAll_eq (k : Sink σ) (st : Stream σ) (es : List Emit) :
    emitAll k st es = (es.flatMap Emit.writes).foldl (write k) st := by
  rw [List.foldl_flatMap]
  rfl

theorem write_of_ok {s t : σ} {piece : String} (h : k.writeAll (utf8 piece) s = (.ok (), t)) :
    write k ⟨s, none⟩ piece = ⟨t, none⟩ := by
  simp only [write]
  rw [show k.writeAll piece.toUTF8.data.toList s = _ from h]

theorem write_of_error {s t : σ} {e : SinkError} {piece : String}
    (h : k.writeAll (utf8 piece) s = (.error e, t)) : write k ⟨s, none⟩ piece = ⟨t, some e⟩ := by
  simp only [write]
  rw [show k.writeAll piece.toUTF8.data.toList s = _ from h]

theorem foldl_write_of_error {e : SinkError} (s : σ) (pieces : List String) :
    pieces.foldl (write k) ⟨s, some e⟩ = ⟨s, some e⟩ := by
  induction pieces with
  | nil => rfl
  | cons piece pieces ih => exact ih

theorem foldl_write_of_accepts {s t : σ} {pieces : List String} (h : k.Accepts s pieces t) :
    pieces.foldl (write k) ⟨s, none⟩ = ⟨t, none⟩ := by
  induction h with
  | nil s => rfl
  | cons hwrite _ ih => rw [List.foldl_cons, write_of_ok hwrite, ih]

/-- The first piece that is not taken decides how the stream ends. -/
theorem foldl_write_of_fails {s t u : σ} {e : SinkError} {earlier later : List String}
    {piece : String} (hearlier : k.Accepts s earlier t) (hpiece : k.writeAll (utf8 piece) t = (.error e, u)) :
    (earlier ++ piece :: later).foldl (write k) ⟨s, none⟩ = ⟨u, some e⟩ := by
  rw [List.foldl_append, foldl_write_of_accepts hearlier, List.foldl_cons, write_of_error hpiece,
    foldl_write_of_error]

end Stream

/-- The stream after nodes were put out from the start of a line. -/
def Node.stream {σ : Type} (k : Sink σ) (style : TextStyle) (nodes : List Node) (s : σ) :
    Stream σ :=
  Stream.emitAll k ⟨s, none⟩ (Node.emits style nodes)

/-- **A stream delivers the text, or what precedes the first failure.** Nodes are written in pieces
that make up their text, and a sink takes all of them or fails on one first. If it takes all of
them, it has received the bytes of the text, and the stream ends by flushing the sink. If it fails
on one, it has received the bytes of the pieces before and a part of this one from the front, nothing
is written to it afterwards, and the stream ends with the error of this failure. -/
theorem stream_delivers_text {σ : Type} {k : Sink σ} {received : σ → List UInt8}
    (hk : k.Delivers received) (style : TextStyle) (nodes : List Node) (s : σ) :
    String.join (Node.pieces style nodes) = Node.rawText style nodes ∧
    ((∃ t, k.Accepts s (Node.pieces style nodes) t) ∨
      ∃ earlier piece later t e u, Node.pieces style nodes = earlier ++ piece :: later ∧
        k.Accepts s earlier t ∧ k.writeAll (utf8 piece) t = (.error e, u)) ∧
    (∀ t, k.Accepts s (Node.pieces style nodes) t →
      Node.stream k style nodes s = ⟨t, none⟩ ∧
      received t = received s ++ utf8 (Node.rawText style nodes) ∧
      (Node.stream k style nodes s).finish k = k.flush t) ∧
    ∀ earlier piece later t e u, Node.pieces style nodes = earlier ++ piece :: later →
      k.Accepts s earlier t → k.writeAll (utf8 piece) t = (.error e, u) →
      Node.stream k style nodes s = ⟨u, some e⟩ ∧
      (∃ part, part <+: utf8 piece ∧ received u = received s ++ utf8 (String.join earlier) ++ part) ∧
      (∀ es, Stream.emitAll k (Node.stream k style nodes s) es = Node.stream k style nodes s) ∧
      (Node.stream k style nodes s).finish k = (.error e, u) := by
  have hstream : Node.stream k style nodes s =
      (Node.pieces style nodes).foldl (Stream.write k) ⟨s, none⟩ := Stream.emitAll_eq k _ _
  refine ⟨Node.join_pieces style nodes, k.accepts_or_fails s _, fun t hall => ?_,
    fun earlier piece later t e u hpieces hearlier hfails => ?_⟩
  · have hend := hstream.trans (Stream.foldl_write_of_accepts hall)
    refine ⟨hend, ?_, by rw [hend]; rfl⟩
    rw [hall.received_eq hk, Node.join_pieces]
  · have hend : Node.stream k style nodes s = ⟨u, some e⟩ := by
      rw [hstream, hpieces]
      exact Stream.foldl_write_of_fails hearlier hfails
    obtain ⟨part, hpart, hreceived⟩ := hk.part hfails
    refine ⟨hend, ⟨part, hpart, ?_⟩, fun es => ?_, by rw [hend]; rfl⟩
    · rw [hreceived, hearlier.received_eq hk]
    · rw [hend, Stream.emitAll_eq, Stream.foldl_write_of_error]

/-- A sink with room for a number of bytes, which fails when it is full. -/
def boundedSink (capacity : Nat) : Sink (List UInt8) where
  write bytes s :=
    if s.length < capacity then
      (.ok (min (capacity - s.length) bytes.length), s ++ bytes.take (capacity - s.length))
    else (.error (.other "full"), s)
  flush s := (.ok (), s)

theorem boundedSink_lawful (capacity : Nat) : (boundedSink capacity).Lawful id where
  took {bytes s t n} hwrite := by
    simp only [boundedSink] at hwrite
    split at hwrite
    · cases hwrite
      exact ⟨Nat.min_le_right _ _, by rw [id, id, ← List.take_eq_take_min]⟩
    · cases hwrite
  failed {bytes s t e} hwrite := by
    simp only [boundedSink] at hwrite
    split at hwrite
    · cases hwrite
    · cases hwrite
      rfl

/-- A branch with a `break` in it. -/
def guardedBreak : Node :=
  .stmt (.if (.bool true) ⟨.bare, [.break]⟩ none)

/-- With room for 19 bytes, the text of `guardedBreak` breaks off inside the word `break`. -/
theorem stream_delivers_text_boundedSink :
    (boundedSink 19).Delivers id ∧
    ∃ earlier piece later part,
      Node.pieces {} [guardedBreak] = earlier ++ piece :: later ∧
      part <+: utf8 piece ∧
      utf8 "if true then\n    br" = utf8 (String.join earlier) ++ part ∧
      (Node.stream (boundedSink 19) {} [guardedBreak] []).finish (boundedSink 19) =
        (.error (.other "full"), utf8 "if true then\n    br") := by
  have hk := (boundedSink_lawful 19).delivers
  obtain ⟨_, hcases, hall, hfails⟩ := stream_delivers_text hk {} [guardedBreak] []
  have herror : (Node.stream (boundedSink 19) {} [guardedBreak] []).error =
      some (.other "full") := by
    decide +kernel
  have hstate : (Node.stream (boundedSink 19) {} [guardedBreak] []).state =
      utf8 "if true then\n    br" := by
    decide +kernel
  rcases hcases with ⟨t, ht⟩ | ⟨earlier, piece, later, t, e, u, hpieces, ht, hu⟩
  · rw [(hall t ht).1] at herror
    cases herror
  · obtain ⟨hend, ⟨part, hpart, hreceived⟩, _, hfinish⟩ :=
      hfails earlier piece later t e u hpieces ht hu
    rw [hend] at herror hstate
    cases herror
    cases hstate
    exact ⟨hk, earlier, piece, later, part, hpieces, hpart, hreceived, hfinish⟩

end LoopLowering
