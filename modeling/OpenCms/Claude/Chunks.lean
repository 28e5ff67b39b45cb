import OpenCms.Claude.Blocks
import OpenCms.Codex.Lines

/-!
# Chunks of a message

A `pull` of `parseAnthropicSSE` reads chunks until one ends a line, and returns. If the lines that it
ended had no data nothing was handed on, and the reader that waits is not served again: the rest of
the stream is lost to it. So what a reader gets depends on how the bytes are cut. It is what the
lines said up to the first pull that has nothing to say (`OpenCms.Claude.deliver_eq`), and two ways of
cutting the same bytes deliver the same parts exactly if they come as far
(`OpenCms.Claude.delivered_iff`).

The first pull hands on the start of the stream, and always has something to say.
-/

namespace OpenCms.Claude

variable (parse : JsString → Option Event)

/-! ### Reading -/

/-- The variables that are kept from one `pull` to the next. -/
structure Parser where
  remainder : JsString
  currentEventType : JsString
  stream : StreamState

def Parser.init : Parser := ⟨[], [], .init⟩

/-- `processLines`: what is handed on, and what is kept. -/
def processLines (parser : Parser) : List JsString → List Part × Parser
  | [] => ([], parser)
  | line :: lines =>
    let trimmed := JsString.trim line
    if trimmed = [] then processLines { parser with currentEventType := [] } lines
    else if js "event: " <+: trimmed then
      processLines { parser with currentEventType := JsString.trim (trimmed.drop 7) } lines
    else if js "data: " <+: trimmed then
      match parse (trimmed.drop 6) with
      | some event =>
        let rest := processLines
          { parser with stream := (dispatchEvent parser.stream event).2 } lines
        (eventParts parser.stream event ++ rest.1, rest.2)
      | none => processLines parser lines
    else processLines parser lines

/-- The parts that are delivered by all pulls, where `enqueued` is what the current one has handed on
before the next chunk is read. A read is always pending, so that a pull that returns with nothing is
the last one. -/
def deliver (enqueued : List Part) (parser : Parser) : List JsString → List Part
  | [] =>
    let processed :=
      if JsString.trim parser.remainder = [] then ([], parser)
      else processLines parse parser (JsString.lines parser.remainder)
    enqueued ++ processed.1 ++ processed.2.stream.close
  | piece :: pieces =>
    let text := parser.remainder ++ piece
    match lastIndexOf [JsString.newline] text with
    | none => deliver enqueued { parser with remainder := text } pieces
    | some lastNewline =>
      let complete := text.take (lastNewline + 1)
      let processed := processLines parse
        { parser with remainder := text.drop (lastNewline + 1) } (JsString.lines complete)
      if enqueued ++ processed.1 = [] then []
      else enqueued ++ processed.1 ++ deliver [] processed.2 pieces

def parseAnthropicSSE (decoder : TextDecoder) (body : List (List UInt8)) : List Part :=
  deliver parse [.streamStart] .init (decoder.pieces body)

/-! ### What the lines say -/

def dataOf (line : JsString) : Option Event :=
  let trimmed := JsString.trim line
  if js "data: " <+: trimmed then parse (trimmed.drop 6) else none

/-- What the lines say that each pull ends. The last one ends with the stream. -/
def turns (remainder : JsString) : List JsString → List (List Event)
  | [] => [(dataOf parse remainder).toList]
  | piece :: pieces =>
    if JsString.newline ∈ remainder ++ piece then
      (JsString.completeLines (remainder ++ piece)).filterMap (dataOf parse) ::
        turns (JsString.lastLine (remainder ++ piece)) pieces
    else turns (remainder ++ piece) pieces

/-- What is said before a turn that ends with nothing said, and whether there is none. What was said
before counts for the first turn, and the last turn does not end. -/
def untilSilence (said : Bool) : List (List Event) → List Event × Bool
  | [] => ([], true)
  | [last] => (last, true)
  | turn :: next :: turns =>
    if said = false ∧ turn = [] then ([], false)
    else (turn ++ (untilSilence false (next :: turns)).1, (untilSilence false (next :: turns)).2)

/-- How far a reader comes: what it is told, and whether it comes to the end. -/
def heard (decoder : TextDecoder) (body : List (List UInt8)) : List Event × Bool :=
  untilSilence true (turns parse [] (decoder.pieces body))

section Deliver

variable {parse} {state : StreamState} {events : List Event} {parser : Parser}

def spoken (state : StreamState) (events : List Event) : Mapped := run Mapped.step ⟨state, []⟩ events

theorem run_mapped (state : StreamState) (parts : List Part) (events : List Event) :
    run Mapped.step ⟨state, parts⟩ events =
      ⟨(spoken state events).state, parts ++ (spoken state events).parts⟩ := by
  induction events generalizing state parts with
  | nil => exact congrArg (Mapped.mk state) (List.append_nil parts).symm
  | cons event events ih =>
    rw [spoken, run_cons, run_cons, Mapped.step, ih, Mapped.step, ih, List.nil_append,
      List.append_assoc]

theorem spoken_cons (event : Event) : (spoken state (event :: events)).parts =
      eventParts state event ++ (spoken (dispatchEvent state event).2 events).parts ∧
    (spoken state (event :: events)).state =
      (spoken (dispatchEvent state event).2 events).state := by
  rw [spoken, run_cons, Mapped.step, run_mapped]
  exact ⟨rfl, rfl⟩

theorem spoken_append (events' : List Event) : (spoken state (events ++ events')).parts =
      (spoken state events).parts ++ (spoken (spoken state events).state events').parts ∧
    (spoken state (events ++ events')).state =
      (spoken (spoken state events).state events').state := by
  have hrun : spoken state (events ++ events') =
      run Mapped.step (spoken state events) events' := run_append ..
  rw [hrun, run_mapped (spoken state events).state (spoken state events).parts]
  exact ⟨rfl, rfl⟩

theorem spoken_eq_nil : (spoken state events).parts = [] ↔ events = [] := by
  rcases events with _ | ⟨event, events⟩
  · exact iff_of_true rfl rfl
  · rw [spoken_cons event |>.1]
    exact iff_of_false (List.cons_ne_nil _ _) (List.cons_ne_nil event events)

/-- **Lines say what their data says.** The type that a line names is not used. -/
theorem processLines_eq (parser : Parser) (lines : List JsString) :
    (processLines parse parser lines).1 =
        (spoken parser.stream (lines.filterMap (dataOf parse))).parts ∧
      (processLines parse parser lines).2.stream =
        (spoken parser.stream (lines.filterMap (dataOf parse))).state ∧
      (processLines parse parser lines).2.remainder = parser.remainder := by
  induction lines generalizing parser with
  | nil => exact ⟨rfl, rfl, rfl⟩
  | cons line lines ih =>
    rw [processLines]
    by_cases hdata : js "data: " <+: JsString.trim line
    · have hhead : (JsString.trim line).head? = some 100 := by
        obtain ⟨rest, hrest⟩ := hdata
        rw [← hrest, List.head?_append, show (js "data: ").head? = some 100 by decide]
        rfl
      have hblank : JsString.trim line ≠ [] := by
        intro hnil
        rw [hnil] at hhead
        exact absurd hhead.symm (Option.some_ne_none 100)
      have hevent : ¬js "event: " <+: JsString.trim line := by
        rintro ⟨rest, hrest⟩
        rw [← hrest, List.head?_append, show (js "event: ").head? = some 101 by decide,
          Option.some_or] at hhead
        exact absurd hhead (by decide)
      rw [if_neg hblank, if_neg hevent, if_pos hdata]
      rcases hparse : parse ((JsString.trim line).drop 6) with _ | event
      · have hline : dataOf parse line = none := (if_pos hdata).trans hparse
        rw [List.filterMap_cons_none hline]
        exact ih parser
      · have hline : dataOf parse line = some event := (if_pos hdata).trans hparse
        obtain ⟨hparts, hstream, hremainder⟩ :=
          ih { parser with stream := (dispatchEvent parser.stream event).2 }
        obtain ⟨hspoken, hstate⟩ := @spoken_cons parser.stream (lines.filterMap (dataOf parse)) event
        rw [List.filterMap_cons_some hline, hspoken, hstate]
        exact ⟨congrArg (eventParts parser.stream event ++ ·) hparts, hstream, hremainder⟩
    · have hline : dataOf parse line = none := if_neg hdata
      rw [List.filterMap_cons_none hline, if_neg hdata]
      split_ifs
      · exact ih { parser with currentEventType := [] }
      · exact ih { parser with
          currentEventType := JsString.trim ((JsString.trim line).drop 7) }
      · exact ih parser

theorem turns_ne_nil (remainder : JsString) (pieces : List JsString) :
    turns parse remainder pieces ≠ [] := by
  induction pieces generalizing remainder with
  | nil => exact List.cons_ne_nil _ _
  | cons piece pieces ih =>
    rw [turns]
    split_ifs
    · exact List.cons_ne_nil _ _
    · exact ih _

theorem untilSilence_cons (said : Bool) (turn : List Event) {turns : List (List Event)}
    (h : turns ≠ []) : untilSilence said (turn :: turns) =
      if said = false ∧ turn = [] then ([], false)
      else (turn ++ (untilSilence false turns).1, (untilSilence false turns).2) := by
  obtain ⟨next, turns, rfl⟩ := List.exists_cons_of_ne_nil h
  rfl

def told (state : StreamState) (heard : List Event × Bool) : List Part :=
  (spoken state heard.1).parts ++ if heard.2 then (spoken state heard.1).state.close else []

/-- **A reader gets what was said before the first silence**, and the end if there was none. -/
theorem deliver_eq (pieces : List JsString) (enqueued : List Part) {parser : Parser}
    (h : JsString.newline ∉ parser.remainder) : deliver parse enqueued parser pieces = enqueued ++
      told parser.stream (untilSilence (enqueued ≠ []) (turns parse parser.remainder pieces)) := by
  induction pieces generalizing enqueued parser with
  | nil =>
    rw [deliver, turns, untilSilence, told, if_pos rfl, List.append_assoc]
    dsimp only
    by_cases hblank : JsString.trim parser.remainder = []
    · have hdata : dataOf parse parser.remainder = none := by
        rw [dataOf, hblank]
        exact if_neg (by decide)
      rw [if_pos hblank, hdata]
      rfl
    · obtain ⟨hparts, hstream, -⟩ :=
        @processLines_eq parse parser (JsString.lines parser.remainder)
      have hlines : (JsString.lines parser.remainder).filterMap (dataOf parse) =
          (dataOf parse parser.remainder).toList := by
        rw [JsString.lines_of_notMem h]
        rcases hdata : dataOf parse parser.remainder with _ | event
        · rw [List.filterMap_cons_none hdata, List.filterMap_nil, Option.toList_none]
        · rw [List.filterMap_cons_some hdata, List.filterMap_nil, Option.toList_some]
      rw [if_neg hblank, hparts, hstream, hlines]
  | cons piece pieces ih =>
    rw [deliver, turns]
    by_cases hmem : JsString.newline ∈ parser.remainder ++ piece
    · obtain ⟨lastNewline, hlast, hlines, hrest⟩ := JsString.lastIndexOf_newline_of_mem hmem
      have hempty : dataOf parse [] = none := by
        rw [dataOf]
        exact if_neg (by decide)
      have hdata : (JsString.completeLines (parser.remainder ++ piece) ++ [[]]).filterMap
          (dataOf parse) =
            (JsString.completeLines (parser.remainder ++ piece)).filterMap (dataOf parse) := by
        rw [List.filterMap_append, List.filterMap_cons_none hempty, List.filterMap_nil,
          List.append_nil]
      obtain ⟨hparts, hstream, hremainder⟩ := @processLines_eq parse
        { parser with remainder := JsString.lastLine (parser.remainder ++ piece) }
        (JsString.completeLines (parser.remainder ++ piece) ++ [[]])
      rw [hdata] at hparts hstream
      have hnew : JsString.newline ∉ (processLines parse
          { parser with remainder := JsString.lastLine (parser.remainder ++ piece) }
            (JsString.completeLines (parser.remainder ++ piece) ++ [[]])).2.remainder := by
        rw [hremainder]
        exact JsString.newline_notMem_lastLine (parser.remainder ++ piece)
      have hgoes := ih [] hnew
      rw [hstream, hremainder] at hgoes
      rw [hlast, if_pos hmem, untilSilence_cons _ _ (turns_ne_nil _ _)]
      dsimp only
      rw [hrest, hlines, hgoes, hparts]
      by_cases hnil : enqueued = [] ∧
          (JsString.completeLines (parser.remainder ++ piece)).filterMap (dataOf parse) = []
      · -- the pull has nothing to hand on
        obtain ⟨rfl, hsilent⟩ := hnil
        rw [hsilent]
        have hsilence : decide (([] : List Part) ≠ []) = false ∧ ([] : List Event) = [] :=
          ⟨rfl, rfl⟩
        refine (if_pos rfl).trans ?_
        rw [if_pos hsilence]
        rfl
      · have hne : ¬(enqueued ++ (spoken parser.stream ((JsString.completeLines
            (parser.remainder ++ piece)).filterMap (dataOf parse))).parts = []) := by
          rw [List.append_eq_nil_iff, spoken_eq_nil]
          exact hnil
        rw [if_neg hne, if_neg fun hboth => hnil ⟨by simpa using hboth.1, hboth.2⟩, told, told]
        dsimp only
        rw [(spoken_append _).1, (spoken_append _).2, List.nil_append, List.append_assoc,
          List.append_assoc]
        rfl
    · rw [JsString.lastIndexOf_newline_of_notMem hmem, if_neg hmem]
      exact ih enqueued hmem

end Deliver

/-! ### Two ways of cutting -/

section Cut

variable {parse} {state : StreamState} {events : List Event}

theorem toRaw_eventParts (event : Event) :
    (eventParts state event).filterMap Part.toRaw = [event] := by
  have hraw : Part.toRaw (.raw event) = some event := rfl
  rw [eventParts, List.filterMap_cons_some hraw,
    List.filterMap_eq_nil_iff.mpr (dispatched state event).raw]

theorem toRaw_told (heard : List Event × Bool) :
    (told state heard).filterMap Part.toRaw = heard.1 := by
  have hspoken : ∀ (events : List Event) (state : StreamState),
      (spoken state events).parts.filterMap Part.toRaw = events := by
    intro events
    induction events with
    | nil => exact fun _ => rfl
    | cons event events ih =>
      intro state
      rw [(spoken_cons event).1, List.filterMap_append, toRaw_eventParts, ih,
        List.singleton_append]
  rw [told, List.filterMap_append, hspoken]
  split_ifs
  · rw [StreamState.close]
    split_ifs
    · rw [List.filterMap_nil, List.append_nil]
    · rw [List.filterMap_cons_none rfl, List.filterMap_nil, List.append_nil]
  · rw [List.filterMap_nil, List.append_nil]

theorem sawMessageStop_spoken : (spoken state events).state.sawMessageStop = true ↔
    state.sawMessageStop = true ∨ .messageStop ∈ events := by
  induction events generalizing state with
  | nil => exact (or_iff_left List.not_mem_nil).symm
  | cons event events ih =>
    rw [(spoken_cons event).2, ih, (dispatched _ _).stopped, List.mem_cons, or_assoc,
      eq_comm (a := event)]

theorem close_spoken_eq_nil :
    (spoken .init events).state.close = [] ↔ .messageStop ∈ events := by
  have hsaw := @sawMessageStop_spoken .init events
  rw [or_iff_right (show ¬StreamState.init.sawMessageStop = true from Bool.false_ne_true)] at hsaw
  rw [StreamState.close, ← hsaw]
  by_cases hstop : (spoken .init events).state.sawMessageStop = true
  · rw [if_pos hstop]
    exact iff_of_true rfl hstop
  · rw [if_neg hstop]
    exact iff_of_false (List.cons_ne_nil _ _) hstop

/-- **What is told is the same** exactly if as much was heard. -/
theorem told_eq_iff {heard heard' : List Event × Bool} :
    told .init heard = told .init heard' ↔
      heard.1 = heard'.1 ∧ (heard.2 = heard'.2 ∨ .messageStop ∈ heard.1) := by
  obtain ⟨events, ends⟩ := heard
  obtain ⟨events', ends'⟩ := heard'
  constructor
  · intro h
    have hevents : events = events' := by
      have hraw := congrArg (List.filterMap Part.toRaw) h
      rwa [toRaw_told, toRaw_told] at hraw
    obtain rfl := hevents
    refine ⟨rfl, ?_⟩
    have hclose := List.append_cancel_left h
    rcases ends with _ | _ <;> rcases ends' with _ | _
    · exact .inl rfl
    · exact .inr (close_spoken_eq_nil.mp hclose.symm)
    · exact .inr (close_spoken_eq_nil.mp hclose)
    · exact .inl rfl
  · rintro ⟨hevents, hends⟩
    obtain rfl : events = events' := hevents
    rcases hends with hends | hstop
    · obtain rfl : ends = ends' := hends
      rfl
    · have hclose := close_spoken_eq_nil.mpr hstop
      rw [told, told]
      dsimp only
      rw [hclose, ite_self, ite_self]

/-- **Two ways of cutting the same bytes deliver the same** exactly if the same lines are heard
before the first silence, and the end with them, unless the message was stopped. The events of the
other stream do not depend on the way at all. -/
theorem delivered_iff {α : Type} (decoder : TextDecoder) (parse : JsString → Option Event)
    (parse' : JsString → Option α) (chunks chunks' : List (List UInt8))
    (hchunks : ∀ chunk ∈ chunks, chunk ≠ []) (hchunks' : ∀ chunk ∈ chunks', chunk ≠ [])
    (h : chunks.flatten = chunks'.flatten) :
    (parseAnthropicSSE parse decoder chunks = parseAnthropicSSE parse decoder chunks' ∧
      Codex.parseSSEStream parse' decoder chunks = Codex.parseSSEStream parse' decoder chunks') ↔
        (heard parse decoder chunks).1 = (heard parse decoder chunks').1 ∧
          ((heard parse decoder chunks).2 = (heard parse decoder chunks').2 ∨
            .messageStop ∈ (heard parse decoder chunks).1) := by
  have hdeliver : ∀ body, parseAnthropicSSE parse decoder body =
      .streamStart :: told .init (heard parse decoder body) :=
    fun body => deliver_eq (decoder.pieces body) [.streamStart] List.not_mem_nil
  rw [and_iff_left (Codex.parseSSEStream_congr parse' decoder hchunks hchunks' h), hdeliver,
    hdeliver, List.cons_inj_right, told_eq_iff]

def ascii : TextDecoder where
  State := Unit
  init := ()
  decode _ bytes := (bytes.map UInt8.toUInt16, ())
  decode_append _ _ _ := congrArg (·, ()) List.map_append

def dataStop : JsString := js "data: \x7b\"type\":\"message_stop\"\x7d\n"

def dataPing : JsString := js "data: \x7b\"type\":\"ping\"\x7d\n"

def parsePing (data : JsString) : Option Event :=
  if data = js "\x7b\"type\":\"message_stop\"\x7d" then some .messageStop
  else if data = js "\x7b\"type\":\"ping\"\x7d" then some .ping
  else none

def bytesOf (text : JsString) : List UInt8 := text.map UInt16.toUInt8

/-- Cut within a line, and between two. -/
theorem pingAndStop_delivered :
    parseAnthropicSSE parsePing ascii [bytesOf dataPing, bytesOf dataStop] =
        parseAnthropicSSE parsePing ascii
          [bytesOf (dataPing.take 7), bytesOf (dataPing.drop 7 ++ dataStop)] ∧
      Codex.parseSSEStream parsePing ascii [bytesOf dataPing, bytesOf dataStop] =
        Codex.parseSSEStream parsePing ascii
          [bytesOf (dataPing.take 7), bytesOf (dataPing.drop 7 ++ dataStop)] :=
  (delivered_iff ascii parsePing parsePing [bytesOf dataPing, bytesOf dataStop]
    [bytesOf (dataPing.take 7), bytesOf (dataPing.drop 7 ++ dataStop)] (by decide)
    (by decide) (by decide)).mpr (by decide)

/-- **Blank lines that come alone** cut off what follows. -/
theorem not_delivered : ¬∀ (decoder : TextDecoder) (parse : JsString → Option Event)
    (chunks chunks' : List (List UInt8)), (∀ chunk ∈ chunks, chunk ≠ []) →
      (∀ chunk ∈ chunks', chunk ≠ []) → chunks.flatten = chunks'.flatten →
        parseAnthropicSSE parse decoder chunks = parseAnthropicSSE parse decoder chunks' := by
  intro h
  have heq := h ascii parsePing [bytesOf dataPing, [10], [10], [10], bytesOf dataStop]
    [bytesOf dataPing ++ [10, 10, 10] ++ bytesOf dataStop] (by decide) (by decide)
    (by decide)
  exact absurd heq (by decide)

end Cut

end OpenCms.Claude
