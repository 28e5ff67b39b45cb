import OpenCms.Lib.TextStream

/-!
# Lines of a response

`parseSSEStream` takes the events out of the body of a response. A line is read when it is ended,
and nothing is read after the line that says that the response is done. However the body is cut, the
events are those of its lines (`OpenCms.Codex.parseSSEStream_congr`).
-/

namespace OpenCms.Codex

variable {α : Type*} (parse : JsString → Option α)

def readLines : List JsString → List α × Bool
  | [] => ([], false)
  | line :: lines =>
    let trimmed := JsString.trim line
    if trimmed = [] ∨ js ":" <+: trimmed then readLines lines
    else if trimmed = js "data: [DONE]" then ([], true)
    else if js "data: " <+: trimmed then
      match parse (trimmed.drop 6) with
      | some event => (event :: (readLines lines).1, (readLines lines).2)
      | none => readLines lines
    else readLines lines

def readPieces (buffer : JsString) : List JsString → List α
  | [] => []
  | piece :: pieces =>
    let read := readLines parse (JsString.completeLines (buffer ++ piece))
    if read.2 then read.1
    else read.1 ++ readPieces (JsString.lastLine (buffer ++ piece)) pieces

def parseSSEStream (decoder : TextDecoder) (body : List (List UInt8)) : List α :=
  readPieces parse [] (decoder.pieces body)

variable {parse}

theorem readLines_append (lines lines' : List JsString) : readLines parse (lines ++ lines') =
    if (readLines parse lines).2 then readLines parse lines
    else ((readLines parse lines).1 ++ (readLines parse lines').1, (readLines parse lines').2) := by
  induction lines with
  | nil => rfl
  | cons line lines ih =>
    rw [List.cons_append, readLines, readLines]
    by_cases hblank : JsString.trim line = [] ∨ js ":" <+: JsString.trim line
    · rw [if_pos hblank, if_pos hblank]
      exact ih
    · rw [if_neg hblank, if_neg hblank]
      by_cases hdone : JsString.trim line = js "data: [DONE]"
      · rw [if_pos hdone, if_pos hdone]
        rfl
      · rw [if_neg hdone, if_neg hdone]
        by_cases hdata : js "data: " <+: JsString.trim line
        · rw [if_pos hdata, if_pos hdata]
          rcases parse ((JsString.trim line).drop 6) with _ | event
          · exact ih
          · rw [ih]
            split_ifs <;> rfl
        · rw [if_neg hdata, if_neg hdata]
          exact ih

theorem readPieces_eq (pieces : List JsString) {buffer : JsString}
    (h : JsString.newline ∉ buffer) : readPieces parse buffer pieces =
      (readLines parse (JsString.completeLines (buffer ++ pieces.flatten))).1 := by
  induction pieces generalizing buffer with
  | nil =>
    rw [List.flatten_nil, List.append_nil, (JsString.completeLines_of_notMem h).1]
    rfl
  | cons piece pieces ih =>
    rw [List.flatten_cons, ← List.append_assoc, JsString.completeLines_append, readLines_append,
      readPieces, ih (JsString.newline_notMem_lastLine _)]
    split_ifs <;> rfl

/-- **However the body is cut**, the events are the same. -/
theorem parseSSEStream_congr (parse : JsString → Option α) (decoder : TextDecoder)
    {chunks chunks' : List (List UInt8)} (hchunks : ∀ chunk ∈ chunks, chunk ≠ [])
    (hchunks' : ∀ chunk ∈ chunks', chunk ≠ []) (h : chunks.flatten = chunks'.flatten) :
    parseSSEStream parse decoder chunks = parseSSEStream parse decoder chunks' := by
  rw [parseSSEStream, parseSSEStream, readPieces_eq _ List.not_mem_nil,
    readPieces_eq _ List.not_mem_nil, decoder.flatten_pieces hchunks hchunks' h]

end OpenCms.Codex
