import Iuna.Adapters.Compact
import Iuna.App.Gossip

/-!
# Lines of a connection

`LimitedLineReader::read_line` of `line_codec.rs` over what a connection delivers: chunks of
bytes, in which a line may end anywhere.
-/

namespace Iuna

/-- `b'\n'`. -/
def newline : UInt8 := 10

/-- `b'\r'`. -/
def carriageReturn : UInt8 := 13

/-- `LimitedLineReader`: the rest of the buffered chunk with the chunks to come, and the bytes of
the unfinished line. -/
structure LimitedLineReader where
  chunks : List Bytes
  pending : Bytes
  deriving DecidableEq

/-- The end of a line without a carriage return. -/
def trimCarriageReturn (line : Bytes) : Bytes :=
  if line.getLast? = some carriageReturn then line.dropLast else line

/-- The text of a complete line. -/
def lineText (line : Bytes) : Result (Option Str) := do
  let text ← orError "p2p message is not valid UTF-8"
    (CompactReader.fromUtf8 (trimCarriageReturn line))
  pure (some text)

def lineTooLong : Result (Option Str) :=
  bail s!"p2p message exceeds {maxGossipLineBytes} byte limit"

/-- The chunks after `consume`: an empty rest is not kept. -/
def consumeBytes (count : ℕ) (available : Bytes) (rest : List Bytes) : List Bytes :=
  if available.drop count = [] then rest else available.drop count :: rest

/-- The loop of `read_line`. -/
def readLineLoop : List Bytes → Bytes → Result (Option Str) × LimitedLineReader
  | [], pending =>
    if pending = [] then (pure none, ⟨[], pending⟩)
    else (bail "peer closed before completing a gossip message", ⟨[], pending⟩)
  | available :: rest, pending =>
    match available.findIdx? fun byte => byte = newline with
    | some position =>
      if maxGossipLineBytes < pending.length + position then
        (lineTooLong, ⟨available :: rest, pending⟩)
      else
        (lineText (pending ++ available.take position),
          ⟨consumeBytes (position + 1) available rest, []⟩)
    | none =>
      if maxGossipLineBytes < pending.length + available.length then
        (lineTooLong, ⟨available :: rest, pending⟩)
      else readLineLoop rest (pending ++ available)

/-- `read_line`. -/
def LimitedLineReader.readLine (reader : LimitedLineReader) :
    Result (Option Str) × LimitedLineReader :=
  readLineLoop reader.chunks reader.pending

/-- The results of a number of calls of `read_line`. -/
def LimitedLineReader.readLines : ℕ → LimitedLineReader → List (Result (Option Str))
  | 0, _ => []
  | count + 1, reader => reader.readLine.1 :: readLines count reader.readLine.2

end Iuna
