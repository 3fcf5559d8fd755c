import Iuna.Adapters.LineCodec

/-!
# Lines in chunks

A reader gives the lines of the stream that its chunks make up, wherever the stream is cut, and the
lines that a peer has written are read back.
-/

namespace Iuna

/-! ## The stream -/

/-- The first line of a stream, and the stream after it. -/
def frame (stream : Bytes) : Result (Option Str) × Bytes :=
  match stream.findIdx? fun byte => byte = newline with
  | some position =>
    if maxGossipLineBytes < position then (lineTooLong, stream)
    else (lineText (stream.take position), stream.drop (position + 1))
  | none =>
    if maxGossipLineBytes < stream.length then (lineTooLong, stream)
    else if stream = [] then (pure none, stream)
    else (bail "peer closed before completing a gossip message", stream)

/-- The results of a number of lines of a stream. -/
def frames : ℕ → Bytes → List (Result (Option Str))
  | 0, _ => []
  | count + 1, stream => (frame stream).1 :: frames count (frame stream).2

namespace LimitedLineReader

/-- The bytes that a reader has not given yet. -/
def remaining (reader : LimitedLineReader) : Bytes := reader.pending ++ reader.chunks.flatten

/-- A chunk has bytes, and the unfinished line has no line end and is not too long. -/
structure WellFormed (reader : LimitedLineReader) : Prop where
  chunks : ∀ chunk ∈ reader.chunks, chunk ≠ []
  unfinished : newline ∉ reader.pending
  bounded : reader.pending.length ≤ maxGossipLineBytes

end LimitedLineReader

open LimitedLineReader

lemma findIdx?_unfinished {pending : Bytes} (unfinished : newline ∉ pending) (stream : Bytes) :
    (pending ++ stream).findIdx? (fun byte => byte = newline)
      = (stream.findIdx? fun byte => byte = newline).map (· + pending.length) := by
  have hnone : pending.findIdx? (fun byte => byte = newline) = none := by
    rw [List.findIdx?_eq_none_iff]
    intro byte hbyte
    simpa using fun heq : byte = newline => unfinished (heq ▸ hbyte)
  rw [List.findIdx?_append, hnone, Option.none_or]

lemma consumeBytes_flatten (count : ℕ) (available : Bytes) (rest : List Bytes) :
    (consumeBytes count available rest).flatten = available.drop count ++ rest.flatten := by
  unfold consumeBytes
  split
  · rename_i hempty
    rw [hempty, List.nil_append]
  · rfl

lemma consumeBytes_ne {rest : List Bytes} (chunks : ∀ chunk ∈ rest, chunk ≠ []) (count : ℕ)
    (available : Bytes) : ∀ chunk ∈ consumeBytes count available rest, chunk ≠ [] := by
  unfold consumeBytes
  split
  · exact chunks
  · exact List.forall_mem_cons.mpr ⟨by assumption, chunks⟩

/-- The loop of the reader on its chunks does what the stream does, for what has been read of the
line. -/
lemma readLineLoop_frame {chunks : List Bytes} {pending : Bytes}
    (h : WellFormed ⟨chunks, pending⟩) :
    (readLineLoop chunks pending).1 = (frame (pending ++ chunks.flatten)).1 ∧
      (readLineLoop chunks pending).2.remaining = (frame (pending ++ chunks.flatten)).2 ∧
      (readLineLoop chunks pending).2.WellFormed := by
  obtain ⟨hchunks, hunfinished, hbounded⟩ := h
  dsimp only at hchunks hunfinished hbounded
  induction chunks generalizing pending with
  | nil =>
    have hnone := findIdx?_unfinished hunfinished []
    rw [List.append_nil, List.findIdx?_nil, Option.map_none] at hnone
    simp only [readLineLoop, frame, List.flatten_nil, List.append_nil, hnone,
      if_neg (not_lt.mpr hbounded)]
    split
    · rename_i hempty
      exact ⟨rfl, by simp [remaining], ⟨hchunks, hunfinished, hbounded⟩⟩
    · exact ⟨rfl, by simp [remaining], ⟨hchunks, hunfinished, hbounded⟩⟩
  | cons available rest ih =>
    obtain ⟨-, hrest⟩ := List.forall_mem_cons.mp hchunks
    have hfind := findIdx?_unfinished hunfinished (available ++ rest.flatten)
    have hsplit : (available ++ rest.flatten).findIdx? (fun byte => byte = newline)
        = (available.findIdx? fun byte => byte = newline).or
          ((rest.flatten.findIdx? fun byte => byte = newline).map (· + available.length)) :=
      List.findIdx?_append
    rw [hsplit] at hfind
    rw [readLineLoop, List.flatten_cons]
    cases hposition : available.findIdx? (fun byte => byte = newline) with
    | some position =>
      rw [hposition, Option.some_or, Option.map_some] at hfind
      have hlt := (List.findIdx?_eq_some_iff_findIdx_eq.mp hposition).1
      rw [Nat.add_comm position pending.length] at hfind
      simp only [frame, hfind]
      by_cases hlong : maxGossipLineBytes < pending.length + position
      · simp only [if_pos hlong]
        exact ⟨trivial, rfl, ⟨hchunks, hunfinished, hbounded⟩⟩
      · simp only [if_neg hlong]
        refine ⟨?_, ?_, ⟨consumeBytes_ne hrest _ _, List.not_mem_nil, Nat.zero_le _⟩⟩
        · rw [List.take_length_add_append, List.take_append_of_le_length hlt.le]
        · rw [remaining, consumeBytes_flatten, Nat.add_assoc, List.drop_length_add_append,
            List.drop_append_of_le_length (Nat.succ_le_of_lt hlt), List.nil_append]
    | none =>
      rw [hposition, Option.none_or] at hfind
      dsimp only
      by_cases hlong : maxGossipLineBytes < pending.length + available.length
      · -- the line is too long wherever it ends
        have htooLong : frame (pending ++ (available ++ rest.flatten))
            = (lineTooLong, pending ++ (available ++ rest.flatten)) := by
          rw [frame, hfind]
          cases rest.flatten.findIdx? (fun byte => byte = newline) with
          | some position =>
            simp only [Option.map_some]
            rw [if_pos (by omega)]
          | none =>
            simp only [Option.map_none, List.length_append]
            rw [if_pos (by omega)]
        rw [if_pos hlong, htooLong]
        exact ⟨rfl, rfl, ⟨hchunks, hunfinished, hbounded⟩⟩
      · rw [if_neg hlong]
        have hmore : newline ∉ available := by
          intro hmem
          have := List.findIdx?_eq_none_iff.mp hposition newline hmem
          simp at this
        have hnext := @ih (pending ++ available) hrest
          (by simpa [List.mem_append] using ⟨hunfinished, hmore⟩)
          (by rw [List.length_append]; omega)
        rwa [List.append_assoc] at hnext

lemma readLines_eq {reader : LimitedLineReader} (h : reader.WellFormed) (count : ℕ) :
    reader.readLines count = frames count reader.remaining := by
  induction count generalizing reader with
  | zero => rfl
  | succ count ih =>
    obtain ⟨hfirst, hremaining, hafter⟩ := readLineLoop_frame h
    have hread : reader.readLine.1 = (frame reader.remaining).1 := hfirst
    have hrest : reader.readLine.2.remaining = (frame reader.remaining).2 := hremaining
    have hnext : reader.readLine.2.WellFormed := hafter
    rw [readLines, frames, hread, ih hnext, hrest]

lemma wellFormed_new {chunks : List Bytes} (delivered : ∀ chunk ∈ chunks, chunk ≠ []) :
    WellFormed ⟨chunks, []⟩ := ⟨delivered, List.not_mem_nil, Nat.zero_le _⟩

/-- **Chunks.** A new reader gives the lines of the stream however it is cut into chunks, and after
any number of them it keeps no more than the longest line. -/
theorem lines_of_chunks {chunks : List Bytes} (delivered : ∀ chunk ∈ chunks, chunk ≠ [])
    (count : ℕ) :
    (LimitedLineReader.mk chunks []).readLines count = frames count chunks.flatten ∧
      ((fun reader : LimitedLineReader => reader.readLine.2)^[count] ⟨chunks, []⟩).pending.length
        ≤ maxGossipLineBytes := by
  have hkept : ∀ (count : ℕ) (reader : LimitedLineReader), reader.WellFormed →
      ((fun reader : LimitedLineReader => reader.readLine.2)^[count] reader).WellFormed := by
    intro count
    induction count with
    | zero => exact fun _ h => h
    | succ count ih => exact fun reader h => ih _ (readLineLoop_frame h).2.2
  exact ⟨readLines_eq (wellFormed_new delivered) count,
    (hkept count _ (wellFormed_new delivered)).bounded⟩

/-! ## What a peer writes -/

/-- The bytes of a written line. -/
def writtenLine (text : Str) : Bytes := utf8 text ++ [newline]

/-- A text that may be written as a line. -/
structure IsLine (text : Str) : Prop where
  unbroken : newline ∉ utf8 text
  trimmed : (utf8 text).getLast? ≠ some carriageReturn
  short : (utf8 text).length ≤ maxGossipLineBytes

lemma fromUtf8_utf8 (text : Str) : CompactReader.fromUtf8 (utf8 text) = some text := by
  have hencode : (utf8 text).toByteArray = text.utf8Encode := rfl
  rw [CompactReader.fromUtf8, hencode, List.utf8Decode?_utf8Encode]
  rfl

lemma frame_writtenLine {text : Str} (h : IsLine text) (stream : Bytes) :
    frame (writtenLine text ++ stream) = (.ok (some text), stream) := by
  have hfind := findIdx?_unfinished h.unbroken (newline :: stream)
  have hposition : (newline :: stream).findIdx? (fun byte => byte = newline) = some 0 := by
    rw [List.findIdx?_cons, if_pos (by simp)]
  rw [hposition, Option.map_some, Nat.zero_add] at hfind
  have hstream : writtenLine text ++ stream = utf8 text ++ newline :: stream := by
    rw [writtenLine, List.append_assoc]
    rfl
  have htext : lineText (utf8 text) = .ok (some text) := by
    rw [lineText, trimCarriageReturn, if_neg h.trimmed, fromUtf8_utf8]
    rfl
  rw [hstream, frame, hfind]
  dsimp only
  rw [if_neg (not_lt.mpr h.short), List.take_left, htext, List.drop_append,
    List.drop_of_length_le (Nat.le_succ _), Nat.add_sub_cancel_left]
  rfl

lemma frames_written {texts : List Str} (h : ∀ text ∈ texts, IsLine text) :
    frames (texts.length + 1) (texts.map writtenLine).flatten
      = texts.map (fun text => .ok (some text)) ++ [.ok none] := by
  induction texts with
  | nil => rfl
  | cons text texts ih =>
    obtain ⟨hfirst, hrest⟩ := List.forall_mem_cons.mp h
    rw [List.map_cons, List.flatten_cons, List.length_cons, frames, frame_writtenLine hfirst]
    dsimp only
    rw [ih hrest]
    rfl

/-- **Round trip.** However the lines that a peer has written arrive in chunks, the reader gives the
texts of all of them in order, and then the end of the connection. -/
theorem written_lines_read {texts : List Str} (lines : ∀ text ∈ texts, IsLine text)
    {chunks : List Bytes} (delivered : ∀ chunk ∈ chunks, chunk ≠ [])
    (stream : chunks.flatten = (texts.map writtenLine).flatten) :
    (LimitedLineReader.mk chunks []).readLines (texts.length + 1)
      = texts.map (fun text => .ok (some text)) ++ [.ok none] := by
  rw [readLines_eq (wellFormed_new delivered), ← frames_written lines, ← stream]
  rfl

end Iuna

namespace Iuna.Toy

/-- Two lines in three chunks, the second of which ends the first line. -/
def threeChunks : List Bytes :=
  [utf8 (str "\x7b"), utf8 (str "\x7d") ++ [newline, 91], [93, newline]]

/-- The chunk that ends a line also begins the next one. -/
theorem lines_of_chunks_three :
    (LimitedLineReader.mk threeChunks []).readLines 2 = frames 2 threeChunks.flatten ∧
      ((fun reader : LimitedLineReader => reader.readLine.2)^[2] ⟨threeChunks, []⟩).pending.length
        ≤ maxGossipLineBytes :=
  lines_of_chunks (by decide) 2

/-- Both texts are read back from the three chunks. -/
theorem written_lines_read_three :
    (LimitedLineReader.mk threeChunks []).readLines 3
      = [str "\x7b\x7d", str "[]"].map (fun text => .ok (some text)) ++ [.ok none] := by
  have lines : ∀ text ∈ [str "\x7b\x7d", str "[]"], IsLine text := by
    intro text htext
    rcases List.mem_pair.mp htext with rfl | rfl
    · exact ⟨by decide, by decide, by decide⟩
    · exact ⟨by decide, by decide, by decide⟩
  have delivered : ∀ chunk ∈ threeChunks, chunk ≠ [] := by decide
  exact written_lines_read lines delivered (by decide)

end Iuna.Toy
