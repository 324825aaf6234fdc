/-!
# Places that bytes are written to

A sink keeps the bytes it accepted. It may have room for a limited number of them: a write that does
not fit is cut off where the room ends and fails.
-/
namespace GotoLang

abbrev Bytes := Array UInt8

def Bytes.ofText (text : String) : Bytes :=
  text.toUTF8.data

/-- The text with these bytes, if they are valid UTF-8. -/
def Bytes.text? (bytes : Bytes) : Option String :=
  String.fromUTF8? ⟨bytes⟩

structure Sink where
  bytes : Bytes := #[]
  room : Option Nat := none
  flushFails : Bool := false

namespace Sink

/-- Append bytes; the flag tells whether all of them were accepted. -/
def write (sink : Sink) (data : Bytes) : Sink × Bool :=
  match sink.room with
  | none => ({ sink with bytes := sink.bytes ++ data }, true)
  | some room =>
    if data.size ≤ room then
      ({ sink with bytes := sink.bytes ++ data, room := some (room - data.size) }, true)
    else
      ({ sink with bytes := sink.bytes ++ data.extract 0 room, room := some 0 }, false)

def print (sink : Sink) (text : String) : Sink × Bool :=
  sink.write (Bytes.ofText text)

end Sink

end GotoLang
