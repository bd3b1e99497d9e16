import RwkvLightning.Library.Execution
import RwkvLightning.Library.Feed
import RwkvLightning.Library.GoStrings
import RwkvLightning.Library.JsonString
import Mathlib

/-!
# The log stream of the launcher

`appendLog`, `launch` and `sse` of `main.go`, and the framing that the page reads the stream
with, `SSEParser` of `sse.ts` and `readLogStream` of `runtime.ts`.

**The slip.**  `sse` finds its place by the text of the last line that it sent.  A line with
the same text that is appended before the next poll is taken for it, and everything up to
there is lost.

**Results.**
* `start_eq_iff`: when the place that is found is the right one.
* `take_frame`: the page reads a line from its frame.
* `logStream_lossless`: which runs lose nothing.
-/

namespace RwkvLightning
namespace Launcher

open GoStrings (Bytes trimSpace replaceAll)
open JsonString (ascii)
open Execution

def lineEnd : UInt8 := 0x0A

/-- A time of the day. -/
structure TimeOfDay where
  hour : Fin 24
  minute : Fin 60
  second : Fin 60
deriving DecidableEq, Repr

def twoDigits (n : ℕ) : Bytes := [UInt8.ofNat (48 + n / 10), UInt8.ofNat (48 + n % 10)]

/-- `time.Format("15:04:05")`. -/
def TimeOfDay.format (now : TimeOfDay) : Bytes :=
  twoDigits now.hour ++ ascii ":" ++ twoDigits now.minute ++ ascii ":" ++ twoDigits now.second

/-- What `process` holds for its log. -/
structure LogProcess where
  running : Bool
  secret : Bytes
  logs : List Bytes
deriving DecidableEq, Repr

/-- The most lines that are kept. -/
def logLimit : ℕ := 2000

namespace LogProcess

variable (process : LogProcess)

/-- The line as it is kept, when it is kept. -/
def logLine (now : TimeOfDay) (line : Bytes) : Option Bytes :=
  let line := if process.secret ≠ [] then replaceAll line process.secret (ascii "[redacted]")
    else line
  let line := trimSpace line
  if line = [] then none else some (ascii "[" ++ now.format ++ ascii "] " ++ line)

/-- `appendLog`. -/
def appendLog (now : TimeOfDay) (line : Bytes) : LogProcess :=
  match process.logLine now line with
  | none => process
  | some line =>
      let logs := process.logs ++ [line]
      { process with
        logs := if logLimit < logs.length then logs.drop (logs.length - logLimit) else logs }

/-- `launch`; the process may not start. -/
def launch (secret : Bytes) (starts : Bool) : Option LogProcess :=
  if process.running then none
  else if starts then some { running := true, secret := secret, logs := [] }
  else none

/-- The process has ended. -/
def exit : LogProcess := { process with running := false }

end LogProcess

section Stream

/-- The loop from the last line back to the first; the argument counts the lines before it. -/
def placeAfter (last : Bytes) (lines : List Bytes) : ℕ → ℕ
  | 0 => 0
  | i + 1 => if lines[i]? = some last then i + 1 else placeAfter last lines i

/-- Where `sse` goes on. -/
def start (last : Bytes) (lines : List Bytes) : ℕ :=
  if last ≠ [] then placeAfter last lines lines.length else 0

/-- An event of the stream. -/
def frame (line : Bytes) : Bytes := ascii "data: " ++ line ++ [lineEnd, lineEnd]

/-- `SSEParser` with the lines that `readLogStream` has passed on. -/
structure SSEParser where
  pending : Bytes
  data : List Bytes
  lines : List Bytes
deriving DecidableEq, Repr

namespace SSEParser

def empty : SSEParser := { pending := [], data := [], lines := [] }

/-- `replace(/\r$/, "")`. -/
def withoutReturn (line : Bytes) : Bytes :=
  if line.getLast? = some 0x0D then line.dropLast else line

/-- `replace(/^ /, "")`. -/
def withoutSpace : Bytes → Bytes
  | 0x20 :: rest => rest
  | text => text

variable (parser : SSEParser)

/-- What `push` does with a line. -/
def endLine : SSEParser :=
  let line := withoutReturn parser.pending
  if line = [] then
    { pending := []
      data := []
      lines := if parser.data ≠ [] then
          parser.lines ++ (List.intercalate [lineEnd] parser.data).splitOn lineEnd
        else parser.lines }
  else if line = ascii "data" ∨ ascii "data:" <+: line then
    { parser with pending := [], data := parser.data ++ [withoutSpace (line.drop 5)] }
  else { parser with pending := [] }

def take (byte : UInt8) : SSEParser :=
  if byte = lineEnd then parser.endLine else { parser with pending := parser.pending ++ [byte] }

/-- `push`, one byte after the other: between two calls `pending` holds no end of a line. -/
def push (text : Bytes) : SSEParser := text.foldl take parser

end SSEParser

/-- A connection: what `sse` remembers, and the page. -/
structure LogStream where
  last : Bytes
  client : SSEParser
deriving DecidableEq, Repr

/-- A client that has just connected. -/
def LogStream.connect : LogStream := { last := [], client := SSEParser.empty }

/-- One pass of the loop of `sse`. -/
def LogStream.poll (stream : LogStream) (lines : List Bytes) : LogStream :=
  (lines.drop (start stream.last lines)).foldl
    (fun stream line => { last := line, client := stream.client.push (frame line) }) stream

end Stream

section System

/-- The code beside its purpose. -/
structure LogSystem where
  process : LogProcess
  stream : LogStream
  feed : Feed Bytes
deriving DecidableEq, Repr

inductive LogEvent
  | append (now : TimeOfDay) (line : Bytes)
  | launch (secret : Bytes) (starts : Bool)
  | exit
  | connect
  | poll
deriving DecidableEq, Repr

namespace LogSystem

/-- Before the first process and the first client. -/
def initial : LogSystem where
  process := { running := false, secret := [], logs := [] }
  stream := LogStream.connect
  feed := Feed.empty

/-- One event of the launcher.  The feed counts the lines that are kept. -/
def after (s : LogSystem) : LogEvent → LogSystem
  | .append now line =>
      { s with
        process := s.process.appendLog now line
        feed := match s.process.logLine now line with
          | none => s.feed
          | some line => s.feed.append logLimit line }
  | .launch secret starts =>
      match s.process.launch secret starts with
      | none => s
      | some process => { s with process := process, feed := s.feed.reset }
  | .exit => { s with process := s.process.exit }
  | .connect => { s with stream := LogStream.connect, feed := s.feed.connect }
  | .poll => { s with stream := s.stream.poll s.process.logs, feed := s.feed.poll }

def step (s : LogSystem) (event : LogEvent) : Option LogSystem := some (s.after event)

/-- The page has every line that it should have, once and in order. -/
def Lossless (s : LogSystem) : Prop := s.stream.client.lines = s.feed.contents

instance (s : LogSystem) : Decidable s.Lossless := inferInstanceAs (Decidable (_ = _))

/-- At a poll, no line that is new reads like the last one that was delivered, or is more than
one line. -/
def Unambiguous (s : LogSystem) : LogEvent → Prop
  | .poll => ∀ entry ∈ s.feed.fresh,
      s.feed.contents.getLast? ≠ some entry.2 ∧ lineEnd ∉ entry.2
  | _ => True

end LogSystem

end System

section Place

variable {last : Bytes} {lines old new : List Bytes}

/-- Passes over other lines. -/
theorem placeAfter_eq {k i : ℕ} (hki : k ≤ i) (h : ∀ j, k ≤ j → j < i → lines[j]? ≠ some last) :
    placeAfter last lines i = placeAfter last lines k := by
  induction i with
  | zero => rw [Nat.le_zero.mp hki]
  | succ i ih =>
      rcases Nat.lt_or_ge i k with hlt | hge
      · have heq : k = i + 1 := by omega
        rw [heq]
      · rw [placeAfter, if_neg (h i hge (Nat.lt_succ_self i))]
        exact ih hge fun j hj hji => h j hj (Nat.lt_succ_of_lt hji)

/-- A line further on is found first. -/
theorem lt_placeAfter {k i : ℕ} (hki : k < i) (h : lines[k]? = some last) :
    k < placeAfter last lines i := by
  induction i with
  | zero => omega
  | succ i ih =>
      rw [placeAfter]
      split
      · exact hki
      · next hne =>
          have hlt : k < i := by
            refine lt_of_le_of_ne (Nat.le_of_lt_succ hki) ?_
            rintro rfl
            exact hne h
          exact ih hlt

theorem placeAfter_le (i : ℕ) : placeAfter last lines i ≤ i := by
  induction i with
  | zero => exact le_rfl
  | succ i ih =>
      rw [placeAfter]
      split
      · exact le_rfl
      · exact ih.trans (Nat.le_succ i)

/-- The place that is found is the first new line exactly when no new line reads like the last
one. -/
theorem start_eq_iff (hold : old = [] ∨ old.getLast? = some last) (hne : [] ∉ old ++ new) :
    start last (old ++ new) = old.length ↔ last ∉ new := by
  by_cases hlast : last = []
  · subst hlast
    have hnil : old = [] := by
      refine hold.resolve_right fun hin => hne (List.mem_append_left _ ?_)
      exact List.mem_of_getLast? hin
    rw [start, if_neg (by simp), hnil]
    exact iff_of_true rfl fun hin => hne (List.mem_append_right _ hin)
  rw [start, if_pos hlast]
  constructor
  · intro hplace hin
    obtain ⟨j, hj, heq⟩ := List.getElem_of_mem hin
    have hat : (old ++ new)[old.length + j]? = some last := by
      rw [List.getElem?_append_right (Nat.le_add_right _ _), Nat.add_sub_cancel_left,
        List.getElem?_eq_getElem hj, heq]
    have hlt := lt_placeAfter (i := (old ++ new).length) (by rw [List.length_append]; omega) hat
    omega
  · intro hnot
    have hskip : placeAfter last (old ++ new) (old ++ new).length =
        placeAfter last (old ++ new) old.length := by
      refine placeAfter_eq (by rw [List.length_append]; omega) fun j hj _ hat => hnot ?_
      rw [List.getElem?_append_right hj] at hat
      exact List.mem_of_getElem? hat
    rw [hskip]
    rcases hold with rfl | hend
    · rfl
    · -- the last of the old lines is where the loop stops
      have hpositive : 0 < old.length := by
        refine List.length_pos_iff.mpr fun hnil => ?_
        rw [hnil] at hend
        cases hend
      obtain ⟨n, hn⟩ : ∃ n, old.length = n + 1 := ⟨old.length - 1, by omega⟩
      rw [hn, placeAfter, if_pos]
      rw [List.getElem?_append_left (by omega), ← hend, List.getLast?_eq_getElem?, hn,
        Nat.add_sub_cancel]

/-- What is found is never before the first new line. -/
theorem le_start (hold : old = [] ∨ old.getLast? = some last) (hne : [] ∉ old ++ new) :
    old.length ≤ start last (old ++ new) := by
  rcases hold with rfl | hend
  · exact Nat.zero_le _
  · have hmem : last ∈ old := List.mem_of_getLast? hend
    have hlast : last ≠ [] := by
      rintro rfl
      exact hne (List.mem_append_left _ hmem)
    have hpositive := List.length_pos_of_mem hmem
    have hat : (old ++ new)[old.length - 1]? = some last := by
      rw [List.getElem?_append_left (by omega), ← hend, List.getLast?_eq_getElem?]
    rw [start, if_pos hlast]
    have hlt := lt_placeAfter (i := (old ++ new).length)
      (by rw [List.length_append]; omega) hat
    omega

end Place

section Framing

variable {parser : SSEParser} {line : Bytes}

theorem push_append (parser : SSEParser) (text more : Bytes) :
    parser.push (text ++ more) = (parser.push text).push more := List.foldl_append

/-- Bytes of one line wait for its end. -/
theorem push_line (h : lineEnd ∉ line) :
    parser.push line = { parser with pending := parser.pending ++ line } := by
  induction line generalizing parser with
  | nil => rw [List.append_nil]; rfl
  | cons c rest ih =>
      have hc : c ≠ lineEnd := fun heq => h (heq ▸ List.mem_cons_self)
      have hpush : parser.push (c :: rest) = (parser.take c).push rest := rfl
      rw [hpush, SSEParser.take, if_neg hc, ih fun hin => h (List.mem_cons_of_mem _ hin),
        List.append_assoc]
      rfl

theorem push_lineEnd (parser : SSEParser) : parser.push [lineEnd] = parser.endLine := rfl

@[simp] theorem endLine_pending (parser : SSEParser) : parser.endLine.pending = [] := by
  unfold SSEParser.endLine
  dsimp only
  split
  · rfl
  · split <;> rfl

/-- An empty line ends an event. -/
theorem endLine_empty (h : parser.pending = []) :
    parser.endLine.data = [] ∧ parser.endLine.pending = [] := by
  refine ⟨?_, endLine_pending parser⟩
  have hline : SSEParser.withoutReturn parser.pending = [] := by rw [h]; rfl
  unfold SSEParser.endLine
  dsimp only
  rw [if_pos hline]

/-- Whatever a frame holds, the page is between two events behind it. -/
theorem push_frame_clean (parser : SSEParser) (line : Bytes) :
    (parser.push (frame line)).pending = [] ∧ (parser.push (frame line)).data = [] := by
  have hsplit : frame line = ascii "data: " ++ line ++ [lineEnd] ++ [lineEnd] := by
    simp [frame]
  rw [hsplit, push_append, push_append, push_lineEnd, push_lineEnd]
  exact (endLine_empty (endLine_pending _)).symm

/-- The page reads a line from its frame. -/
theorem push_frame (hpending : parser.pending = []) (hdata : parser.data = [])
    (hline : lineEnd ∉ line) (hreturn : line.getLast? ≠ some 0x0D) (hne : line ≠ []) :
    parser.push (frame line) = { pending := [], data := [], lines := parser.lines ++ [line] } := by
  have hprefix : lineEnd ∉ ascii "data: " ++ line := by
    rw [List.mem_append]
    rintro (hin | hin)
    · exact absurd hin (by decide)
    · exact hline hin
  have hkept : SSEParser.withoutReturn (ascii "data: " ++ line) = ascii "data: " ++ line := by
    rw [SSEParser.withoutReturn, List.getLast?_append_of_ne_nil _ hne, if_neg hreturn]
  have hdatum : (SSEParser.endLine { parser with pending := ascii "data: " ++ line }) =
      { parser with pending := [], data := [line] } := by
    unfold SSEParser.endLine
    dsimp only
    rw [hkept, if_neg (by simp [ascii]), if_pos (Or.inr ⟨ascii " " ++ line, rfl⟩), hdata]
    rfl
  have hsplit : frame line = ascii "data: " ++ line ++ [lineEnd] ++ [lineEnd] := by
    simp [frame]
  rw [hsplit, push_append, push_append, push_line hprefix, hpending, List.nil_append, push_lineEnd,
    push_lineEnd, hdatum]
  have hone : (List.intercalate [lineEnd] [line]).splitOn lineEnd = [line] :=
    List.splitOn_intercalate lineEnd
      (by intro l hl; rw [List.mem_singleton.mp hl]; exact hline) (List.cons_ne_nil _ _)
  have hempty : SSEParser.withoutReturn [] = [] := rfl
  unfold SSEParser.endLine
  dsimp only
  rw [if_pos hempty, if_pos (List.cons_ne_nil _ _), hone]

/-- The page never has a line with an end of a line in it, and keeps the ones it has. -/
theorem push_lines (text : Bytes) (h : ∀ line ∈ parser.lines, lineEnd ∉ line) :
    (∀ line ∈ (parser.push text).lines, lineEnd ∉ line) := by
  induction text generalizing parser with
  | nil => exact h
  | cons c rest ih =>
      have htaken : ∀ line ∈ (parser.take c).lines, lineEnd ∉ line := by
        unfold SSEParser.take SSEParser.endLine
        dsimp only
        split
        · split
          · intro line hmem
            split at hmem
            · rcases List.mem_append.mp hmem with hold | hnew
              · exact h line hold
              · exact GoStrings.not_mem_of_mem_split hnew
            · exact h line hmem
          · split <;> exact h
        · exact h
      exact ih htaken

end Framing

section Poll

/-- A line as `appendLog` keeps it. -/
def Kept (line : Bytes) : Prop := line ≠ [] ∧ line.getLast? ≠ some 0x0D

theorem kept_logLine {process : LogProcess} {now : TimeOfDay} {line kept : Bytes}
    (h : process.logLine now line = some kept) : Kept kept := by
  unfold LogProcess.logLine at h
  dsimp only at h
  generalize (if process.secret ≠ [] then replaceAll line process.secret (ascii "[redacted]")
    else line) = redacted at h
  split at h
  · cases h
  · next hne =>
      rw [← Option.some.inj h]
      refine ⟨by simp [ascii], ?_⟩
      rw [List.getLast?_append_of_ne_nil _ hne]
      intro hreturn
      obtain ⟨front, hfront⟩ := List.getLast?_eq_some_iff.mp hreturn
      have hspace : ([0x0D] : Bytes) ∈ GoStrings.spaces := by decide
      exact GoStrings.not_suffix_trimSpace _ hspace ⟨front, hfront.symm⟩

/-- The loop over the lines of a poll. -/
def sendAll (stream : LogStream) (lines : List Bytes) : LogStream :=
  lines.foldl
    (fun stream line => { last := line, client := stream.client.push (frame line) }) stream

theorem sendAll_last (stream : LogStream) (lines : List Bytes) :
    (sendAll stream lines).last = lines.getLast?.getD stream.last := by
  induction lines generalizing stream with
  | nil => rfl
  | cons line rest ih =>
      have hcons : sendAll stream (line :: rest) =
          sendAll { last := line, client := stream.client.push (frame line) } rest := rfl
      rw [hcons, ih, List.getLast?_cons]
      cases rest.getLast? <;> rfl

/-- The page between two events. -/
def Clean (client : SSEParser) : Prop :=
  client.pending = [] ∧ client.data = [] ∧ ∀ line ∈ client.lines, lineEnd ∉ line

theorem sendAll_clean {stream : LogStream} (h : Clean stream.client) (lines : List Bytes) :
    Clean (sendAll stream lines).client := by
  induction lines generalizing stream with
  | nil => exact h
  | cons line rest ih =>
      obtain ⟨hpending, hdata⟩ := push_frame_clean stream.client line
      have hclean : Clean (stream.client.push (frame line)) :=
        ⟨hpending, hdata, push_lines _ h.2.2⟩
      exact ih hclean

/-- The page gets the lines that are lines. -/
theorem sendAll_lines {stream : LogStream} (h : Clean stream.client) {lines : List Bytes}
    (hkept : ∀ line ∈ lines, Kept line) (hlines : ∀ line ∈ lines, lineEnd ∉ line) :
    (sendAll stream lines).client.lines = stream.client.lines ++ lines := by
  induction lines generalizing stream with
  | nil => exact (List.append_nil _).symm
  | cons line rest ih =>
      obtain ⟨hne, hreturn⟩ := hkept line List.mem_cons_self
      have hpush := push_frame h.1 h.2.1 (hlines line List.mem_cons_self) hreturn hne
      have hclean := sendAll_clean h [line]
      have hcons : sendAll stream (line :: rest) = sendAll (sendAll stream [line]) rest := rfl
      have hone : (sendAll stream [line]).client.lines = stream.client.lines ++ [line] := by
        have hclient : (sendAll stream [line]).client = stream.client.push (frame line) := rfl
        rw [hclient, hpush]
      rw [hcons, ih hclean (fun l hl => hkept l (List.mem_cons_of_mem _ hl))
        (fun l hl => hlines l (List.mem_cons_of_mem _ hl)), hone, List.append_assoc]
      rfl

variable {stream : LogStream} {old new : List Bytes}

/-- A poll delivers what is new exactly when the place is found and every new line is one. -/
theorem poll_lines_iff (hclean : Clean stream.client) (hkept : ∀ line ∈ old ++ new, Kept line)
    (hold : old = [] ∨ old.getLast? = some stream.last) :
    (stream.poll (old ++ new)).client.lines = stream.client.lines ++ new ↔
      stream.last ∉ new ∧ ∀ line ∈ new, lineEnd ∉ line := by
  have hne : [] ∉ old ++ new := fun hin => (hkept [] hin).1 rfl
  have hpoll : stream.poll (old ++ new) =
      sendAll stream ((old ++ new).drop (start stream.last (old ++ new))) := rfl
  have hkeptNew : ∀ line ∈ new, Kept line := fun line hin => hkept line (List.mem_append_right _ hin)
  constructor
  · intro heq
    have hlines : ∀ line ∈ new, lineEnd ∉ line := by
      have hall := (sendAll_clean hclean
        ((old ++ new).drop (start stream.last (old ++ new)))).2.2
      rw [← hpoll, heq] at hall
      exact fun line hin => hall line (List.mem_append_right _ hin)
    refine ⟨?_, hlines⟩
    -- otherwise fewer lines are sent than are new
    have hle := le_start hold hne
    have hdrop : (old ++ new).drop (start stream.last (old ++ new)) =
        new.drop (start stream.last (old ++ new) - old.length) := by
      rw [List.drop_append, List.drop_eq_nil_of_le hle, List.nil_append]
    rw [hpoll, hdrop, sendAll_lines hclean
      (fun line hin => hkeptNew line (List.mem_of_mem_drop hin))
      (fun line hin => hlines line (List.mem_of_mem_drop hin))] at heq
    have hlength := congrArg List.length (List.append_cancel_left heq)
    rw [List.length_drop] at hlength
    rw [← start_eq_iff hold hne]
    by_cases hnil : new = []
    · exact (start_eq_iff hold hne).mpr (by rw [hnil]; exact List.not_mem_nil)
    · have hpositive := List.length_pos_iff.mpr hnil
      omega
  · rintro ⟨hlast, hlines⟩
    have hplace := (start_eq_iff hold hne).mpr hlast
    rw [hpoll, hplace, List.drop_left, sendAll_lines hclean hkeptNew hlines]

end Poll

section Runs

/-- The two sides agree, as far as all polls found their place. -/
structure Agrees (s : LogSystem) : Prop where
  ordered : s.feed.Ordered
  logs : s.process.logs = s.feed.window.map Prod.snd
  kept : ∀ line ∈ s.feed.contents ++ s.process.logs, Kept line
  clean : Clean s.stream.client
  last : s.stream.last = s.feed.contents.getLast?.getD []
  lossless : s.Lossless

theorem agrees_initial : Agrees LogSystem.initial where
  ordered := Feed.ordered_empty
  logs := rfl
  kept := fun _ hline => absurd hline List.not_mem_nil
  clean := ⟨rfl, rfl, fun _ hline => absurd hline List.not_mem_nil⟩
  last := rfl
  lossless := rfl

/-- `appendLog` keeps the last lines. -/
theorem appendLog_logs {process : LogProcess} {now : TimeOfDay} {line kept : Bytes}
    (h : process.logLine now line = some kept) :
    (process.appendLog now line).logs = Feed.keepLast logLimit (process.logs ++ [kept]) := by
  rw [LogProcess.appendLog, h]
  dsimp only
  split
  · rfl
  · next hle =>
      rw [Feed.keepLast, Nat.sub_eq_zero_of_le (Nat.not_lt.mp hle), List.drop_zero]

variable {s : LogSystem}

/-- The window by what was delivered. -/
theorem Agrees.split (h : Agrees s) :
    ∃ old, s.process.logs = old ++ s.feed.fresh.map Prod.snd ∧
      (old = [] ∨ old.getLast? = some s.stream.last) := by
  obtain ⟨old, hwindow, hold, -⟩ := h.ordered.window_eq
  refine ⟨old.map Prod.snd, by rw [h.logs, ← List.map_append, ← hwindow], ?_⟩
  rcases List.eq_nil_or_concat' old with rfl | ⟨front, entry, rfl⟩
  · exact Or.inl rfl
  · right
    obtain ⟨before, hbefore⟩ := hold
    have hlast : s.feed.contents.getLast? = some entry.2 := by
      rw [Feed.contents, ← hbefore, ← List.append_assoc, List.map_append, List.map_singleton,
        List.getLast?_concat]
    rw [h.last, hlast, List.map_append, List.map_singleton, List.getLast?_concat]
    rfl

theorem Agrees.poll_iff (h : Agrees s) :
    (s.after .poll).Lossless ↔ s.Unambiguous .poll := by
  obtain ⟨old, hlogs, hold⟩ := h.split
  have hkept : ∀ line ∈ old ++ s.feed.fresh.map Prod.snd, Kept line :=
    fun line hin => h.kept line (List.mem_append_right _ (hlogs ▸ hin))
  have hcontents : (s.after .poll).feed.contents =
      s.stream.client.lines ++ s.feed.fresh.map Prod.snd := by
    have hall : (s.after .poll).feed.contents =
        s.feed.contents ++ s.feed.fresh.map Prod.snd := Feed.contents_poll s.feed
    rw [hall, ← h.lossless]
  have hclient : (s.after .poll).stream = s.stream.poll (old ++ s.feed.fresh.map Prod.snd) := by
    rw [← hlogs]
    rfl
  rw [LogSystem.Lossless, hcontents, hclient, poll_lines_iff h.clean hkept hold]
  have hlast : ∀ line, Kept line →
      (s.feed.contents.getLast? ≠ some line ↔ s.stream.last ≠ line) := by
    intro line hline
    rw [h.last]
    cases s.feed.contents.getLast? with
    | none => exact iff_of_true (by simp) (Ne.symm hline.1)
    | some found => simp
  constructor
  · rintro ⟨hplace, hlines⟩ entry hentry
    have hmem := List.mem_map_of_mem (f := Prod.snd) hentry
    refine ⟨(hlast entry.2 (hkept _ (List.mem_append_right _ hmem))).mpr ?_, hlines _ hmem⟩
    rintro heq
    exact hplace (heq ▸ hmem)
  · intro hgood
    refine ⟨fun hin => ?_, fun line hin => ?_⟩
    · obtain ⟨entry, hentry, heq⟩ := List.mem_map.mp hin
      have hmem := List.mem_append_right old (List.mem_map_of_mem (f := Prod.snd) hentry)
      exact (hlast entry.2 (hkept _ hmem)).mp (hgood entry hentry).1 heq.symm
    · obtain ⟨entry, hentry, rfl⟩ := List.mem_map.mp hin
      exact (hgood entry hentry).2

/-- A poll that finds its place keeps the agreement. -/
theorem Agrees.poll (h : Agrees s) (hgood : s.Unambiguous .poll) : Agrees (s.after .poll) := by
  obtain ⟨old, hlogs, hold⟩ := h.split
  have hall : (s.after .poll).feed.contents = s.feed.contents ++ s.feed.fresh.map Prod.snd :=
    Feed.contents_poll s.feed
  refine ⟨h.ordered.poll, h.logs, ?_, sendAll_clean h.clean _, ?_, h.poll_iff.mpr hgood⟩
  · intro line hline
    rw [hall, List.append_assoc] at hline
    rcases List.mem_append.mp hline with hcontents | hlater
    · exact h.kept line (List.mem_append_left _ hcontents)
    · refine h.kept line (List.mem_append_right _ ?_)
      rcases List.mem_append.mp hlater with hfresh | hin
      · rw [hlogs]
        exact List.mem_append_right _ hfresh
      · exact hin
  · have hkept : ∀ line ∈ old ++ s.feed.fresh.map Prod.snd, Kept line :=
      fun line hin => h.kept line (List.mem_append_right _ (hlogs ▸ hin))
    have hne : [] ∉ old ++ s.feed.fresh.map Prod.snd := fun hin => (hkept [] hin).1 rfl
    have hplace : start s.stream.last s.process.logs = old.length := by
      have hlossless := h.poll_iff.mpr hgood
      rw [hlogs]
      refine (start_eq_iff hold hne).mpr fun hin => ?_
      obtain ⟨entry, hentry, heq⟩ := List.mem_map.mp hin
      have hnot := (hgood entry hentry).1
      rw [h.last] at heq
      cases hcontents : s.feed.contents.getLast? with
      | none =>
          rw [hcontents] at heq
          have hempty : entry.2 = [] := heq
          refine hne (List.mem_append_right _ ?_)
          rw [← hempty]
          exact List.mem_map_of_mem hentry
      | some found =>
          rw [hcontents] at heq hnot
          exact hnot (by rw [heq]; rfl)
    have hsent : (s.after .poll).stream =
        sendAll s.stream (s.feed.fresh.map Prod.snd) := by
      have hpoll : (s.after .poll).stream =
          sendAll s.stream (s.process.logs.drop (start s.stream.last s.process.logs)) := rfl
      rw [hpoll, hplace, hlogs, List.drop_left]
    rw [hsent, sendAll_last, hall, List.getLast?_append, h.last]
    cases (s.feed.fresh.map Prod.snd).getLast? <;> simp

theorem Agrees.after (h : Agrees s) {event : LogEvent} (hgood : s.Unambiguous event) :
    Agrees (s.after event) := by
  cases event with
  | append now line =>
      cases hline : s.process.logLine now line with
      | none =>
          have hprocess : s.process.appendLog now line = s.process := by
            rw [LogProcess.appendLog, hline]
          have hsame : s.after (.append now line) = s := by
            rw [LogSystem.after, hprocess, hline]
          rwa [hsame]
      | some kept =>
          have hlogs := appendLog_logs hline
          have hafter : s.after (.append now line) = { s with
              process := s.process.appendLog now line
              feed := s.feed.append logLimit kept } := by
            rw [LogSystem.after, hline]
          rw [hafter]
          have hcontents := Feed.contents_append logLimit kept s.feed
          refine ⟨h.ordered.append _ _, ?_, ?_, h.clean, h.last.trans (by rw [hcontents]),
            Eq.trans h.lossless hcontents.symm⟩
          · rw [h.logs, ← Feed.map_window_append] at hlogs
            exact hlogs
          · intro other hother
            rw [hcontents] at hother
            rcases List.mem_append.mp hother with hcontents | hin
            · exact h.kept other (List.mem_append_left _ hcontents)
            · rw [hlogs] at hin
              have hmem : other ∈ s.process.logs ++ [kept] := List.mem_of_mem_drop hin
              rcases List.mem_append.mp hmem with hold | hnew
              · exact h.kept other (List.mem_append_right _ hold)
              · rw [List.mem_singleton.mp hnew]
                exact kept_logLine hline
  | launch secret starts =>
      cases hlaunch : s.process.launch secret starts with
      | none =>
          have hsame : s.after (.launch secret starts) = s := by rw [LogSystem.after, hlaunch]
          rwa [hsame]
      | some process =>
          have hlogs : process.logs = [] := by
            unfold LogProcess.launch at hlaunch
            split at hlaunch
            · cases hlaunch
            · split at hlaunch
              · rw [← Option.some.inj hlaunch]
              · cases hlaunch
          have hafter : s.after (.launch secret starts) =
              { s with process := process, feed := s.feed.reset } := by
            rw [LogSystem.after, hlaunch]
          rw [hafter]
          refine ⟨h.ordered.reset, hlogs, ?_, h.clean, h.last, h.lossless⟩
          intro other hother
          rw [hlogs, List.append_nil] at hother
          exact h.kept other (List.mem_append_left _ hother)
  | exit => exact ⟨h.ordered, h.logs, h.kept, h.clean, h.last, h.lossless⟩
  | connect =>
      refine ⟨h.ordered.connect, h.logs, ?_,
        ⟨rfl, rfl, fun _ hline => absurd hline List.not_mem_nil⟩, rfl, rfl⟩
      exact fun line hline => h.kept line (List.mem_append_right _ hline)
  | poll => exact h.poll hgood

/-- One event loses nothing exactly when it is no poll that is misled. -/
theorem Agrees.lossless_iff (h : Agrees s) (event : LogEvent) :
    (s.after event).Lossless ↔ s.Unambiguous event := by
  have hother : s.Unambiguous event → ((s.after event).Lossless ↔ s.Unambiguous event) :=
    fun hgood => iff_of_true (h.after hgood).lossless hgood
  cases event with
  | poll => exact h.poll_iff
  | append now line => exact hother trivial
  | launch secret starts => exact hother trivial
  | exit => exact hother trivial
  | connect => exact hother trivial

/-- **The log stream.**  Along a run the page always has every line that was in the window at a
poll, once and in order, exactly when no poll of the run is misled. -/
theorem logStream_lossless (events : List LogEvent) :
    (∀ pre, pre <+: events → ∀ s, exec LogSystem.step LogSystem.initial pre = some s →
      s.Lossless) ↔
      StepsMeet LogSystem.step LogSystem.Unambiguous LogSystem.initial events := by
  refine forall_prefix_iff_stepsMeet (I := Agrees) ?_ ?_ ?_ (fun _ h => h.lossless)
    agrees_initial events
  · intro s event hnone
    cases hnone
  · intro s event t h hstep
    rw [← Option.some.inj hstep]
    exact h.lossless_iff event
  · intro s event t h hgood hstep
    rw [← Option.some.inj hstep]
    exact h.after hgood

/-- A poll, and in the same second another line and the first one again. -/
def repeatedLine : List LogEvent :=
  let noon : TimeOfDay := { hour := 12, minute := 0, second := 0 }
  [.launch [] true, .append noon (ascii "stdout: ready"), .connect, .poll,
    .append noon (ascii "stdout: warming up"), .append noon (ascii "stdout: ready"), .poll]

/-- Two of the three lines never reach the page. -/
theorem repeatedLine_lost :
    ∃ s, exec LogSystem.step LogSystem.initial repeatedLine = some s ∧ ¬s.Lossless ∧
      s.stream.client.lines = [ascii "[12:00:00] stdout: ready"] ∧ s.feed.contents =
        [ascii "[12:00:00] stdout: ready", ascii "[12:00:00] stdout: warming up",
          ascii "[12:00:00] stdout: ready"] := by
  refine ⟨_, rfl, ?_, ?_, ?_⟩ <;> decide +kernel

end Runs

end Launcher
end RwkvLightning
