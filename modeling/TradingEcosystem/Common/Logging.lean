import TradingEcosystem.Common.LFQueue
import Mathlib.Data.List.Induction

/-!
# Logging

`common/logging.h`: `log` interprets a format string and pushes its text, element by element, to a
queue, from which another thread writes it to the log file.  How a floating-point number is written
is a parameter.

- `Logger.log` : the two overloads, as they push elements
- `Logger.Piece` : format strings as they are meant, with `Logger.parse`
- `Logger.logCalls_spec` : the calls that do not abort, and the text they push
- `Logger.log_file` : what comes into the file, whatever the two threads do
-/

namespace TradingEcosystem

/-- The number of elements of the queue. -/
def LOG_QUEUE_SIZE : ℕ := 8 * 1024 * 1024

/-- An entry of the queue. -/
inductive LogElement (F : Type) where
  | CHAR (c : Char)
  | INTEGER (i : ℤ)
  | LONG_INTEGER (l : ℤ)
  | LONG_LONG_INTEGER (ll : ℤ)
  | UNSIGNED_INTEGER (u : ℕ)
  | UNSIGNED_LONG_INTEGER (ul : ℕ)
  | UNSIGNED_LONG_LONG_INTEGER (ull : ℕ)
  | FLOAT (f : F)
  | DOUBLE (d : F)

/-- An argument of `log`: what `pushValue` has an overload for. -/
inductive LogArg (F : Type) where
  | element (e : LogElement F)
  /-- A C string or the `c_str()` of a string. -/
  | text (s : List Char)

namespace Logger

variable {F : Type} {showReal : F → List Char}

/-! ## Pushing -/

/-- The overload for C strings pushes the characters up to the first zero. -/
def pushValue : LogArg F → List (LogElement F)
  | .element e => [e]
  | .text s => (s.takeWhile (· ≠ '\x00')).map .CHAR

/-- `log(s)`, where `pushed` was pushed before. -/
def logText : List Char → List (LogElement F) → Except Fault (List (LogElement F))
  | [], pushed => .ok pushed
  -- to allow %% -> % escape character
  | '%' :: '%' :: s, pushed => logText s (pushed ++ [.CHAR '%'])
  -- missing arguments to log()
  | '%' :: _, _ => .error .assert
  | c :: s, pushed => logText s (pushed ++ [.CHAR c])

/-- `log(s, args...)`. -/
def log : List Char → List (LogArg F) → List (LogElement F) →
    Except Fault (List (LogElement F))
  | s, [], pushed => logText s pushed
  -- extra arguments provided to log()
  | [], _ :: _, _ => .error .assert
  | '%' :: '%' :: s, value :: args, pushed => log s (value :: args) (pushed ++ [.CHAR '%'])
  | '%' :: s, value :: args, pushed => log s args (pushed ++ pushValue value)
  | c :: s, value :: args, pushed => log s (value :: args) (pushed ++ [.CHAR c])

/-- What a thread logs, one call after the other. -/
def logCalls (calls : List (List Char × List (LogArg F))) :
    Except Fault (List (LogElement F)) :=
  calls.foldlM (fun pushed call => log call.1 call.2 pushed) []

/-- `file_ << ...` of one element. -/
def write (showReal : F → List Char) : LogElement F → List Char
  | .CHAR c => [c]
  | .INTEGER i => (toString i).toList
  | .LONG_INTEGER l => (toString l).toList
  | .LONG_LONG_INTEGER ll => (toString ll).toList
  | .UNSIGNED_INTEGER u => (toString u).toList
  | .UNSIGNED_LONG_INTEGER ul => (toString ul).toList
  | .UNSIGNED_LONG_LONG_INTEGER ull => (toString ull).toList
  | .FLOAT f => showReal f
  | .DOUBLE d => showReal d

/-- What `flushQueue` has written after it read `elements`. -/
def file (showReal : F → List Char) (elements : List (LogElement F)) : List Char :=
  elements.flatMap (write showReal)

theorem file_append (elements elements' : List (LogElement F)) :
    file showReal (elements ++ elements') = file showReal elements ++ file showReal elements' :=
  List.flatMap_append

/-! ## Format strings -/

/-- A part of a format string. -/
inductive Piece where
  | char (c : Char)
  | percent
  | hole
  deriving DecidableEq, Repr

/-- Two `%` are one that is meant, one is the place of an argument. -/
def parse : List Char → List Piece
  | [] => []
  | '%' :: '%' :: s => .percent :: parse s
  | '%' :: s => .hole :: parse s
  | c :: s => .char c :: parse s

def print : List Piece → List Char
  | [] => []
  | .char c :: ps => c :: print ps
  | .percent :: ps => '%' :: '%' :: print ps
  | .hole :: ps => '%' :: print ps

def holes (ps : List Piece) : ℕ := ps.count .hole

/-- The text, with the arguments in their places. -/
def fill : List Piece → List (List Char) → List Char
  | [], _ => []
  | .char c :: ps, texts => c :: fill ps texts
  | .percent :: ps, texts => '%' :: fill ps texts
  | .hole :: ps, text :: texts => text ++ fill ps texts
  | .hole :: ps, [] => fill ps []

/-- Every format string is one. -/
theorem print_parse (s : List Char) : print (parse s) = s := by
  fun_induction parse s with
  | case1 => rfl
  | case2 s ih => simp [print, ih]
  | case3 s _ ih => simp [print, ih]
  | case4 c s _ _ ih => simp [print, ih]

/-- The text of an argument. -/
def argText (showReal : F → List Char) (arg : LogArg F) : List Char :=
  file showReal (pushValue arg)

/-- What a call is meant to log. -/
def text (showReal : F → List Char) (call : List Char × List (LogArg F)) : List Char :=
  fill (parse call.1) (call.2.map (argText showReal))

/-- As many arguments as there are places for them. -/
def Matches (call : List Char × List (LogArg F)) : Prop :=
  holes (parse call.1) = call.2.length

instance (call : List Char × List (LogArg F)) : Decidable (Matches call) :=
  inferInstanceAs (Decidable (_ = _))

/-! ## What is pushed -/

/-- The elements of a format string with its arguments in their places. -/
def elements : List Piece → List (LogArg F) → List (LogElement F)
  | [], _ => []
  | .char c :: ps, args => .CHAR c :: elements ps args
  | .percent :: ps, args => .CHAR '%' :: elements ps args
  | .hole :: ps, arg :: args => pushValue arg ++ elements ps args
  | .hole :: ps, [] => elements ps []

theorem file_elements (ps : List Piece) (args : List (LogArg F)) :
    file showReal (elements ps args) = fill ps (args.map (argText showReal)) := by
  fun_induction elements ps args with
  | case1 args => rfl
  | case2 c ps args ih =>
    rw [fill, ← ih]
    rfl
  | case3 ps args ih =>
    rw [fill, ← ih]
    rfl
  | case4 ps arg args ih =>
    rw [List.map_cons, fill, ← ih, file_append]
    rfl
  | case5 ps ih =>
    rw [List.map_nil, fill]
    exact ih

/-- The overload without arguments; induction on its loop. -/
theorem logText_eq (s : List Char) (pushed : List (LogElement F)) :
    logText s pushed =
      if holes (parse s) = 0 then .ok (pushed ++ elements (parse s) []) else .error .assert := by
  fun_induction logText s pushed with
  | case1 pushed => simp [parse, holes, elements]
  | case2 pushed s ih => simp [parse, holes, elements, ih]
  | case3 pushed s _ => simp [parse, holes]
  | case4 pushed c s _ _ ih => simp [parse, holes, elements, ih]

/-- **What a call pushes**; induction on its loop, through the arguments. -/
theorem log_eq (s : List Char) (args : List (LogArg F)) (pushed : List (LogElement F)) :
    log s args pushed =
      if holes (parse s) = args.length then .ok (pushed ++ elements (parse s) args)
      else .error .assert := by
  fun_induction log s args pushed with
  | case1 s pushed => exact logText_eq s pushed
  | case2 value args pushed => simp [parse, holes]
  | case3 value args pushed s ih => simp [parse, holes, elements, ih]
  | case4 value args pushed s _ ih => simp [parse, holes, elements, ih]
  | case5 value args pushed c s _ _ ih => simp [parse, holes, elements, ih]

theorem logCalls_append (calls : List (List Char × List (LogArg F)))
    (call : List Char × List (LogArg F)) :
    logCalls (calls ++ [call]) = logCalls calls >>= log call.1 call.2 := by
  unfold logCalls
  rw [List.foldlM_append]
  refine congrArg _ (funext fun pushed => ?_)
  rw [List.foldlM_cons]
  exact bind_pure _

/-- **Which calls abort, and what the others log**: a thread gets through its calls exactly when
each has as many arguments as places for them, and then the text of the calls is what is pushed. -/
theorem logCalls_spec (showReal : F → List Char) (calls : List (List Char × List (LogArg F))) :
    ((∃ pushed, logCalls calls = .ok pushed) ↔ ∀ call ∈ calls, Matches call) ∧
      (∀ pushed, logCalls calls = .ok pushed →
        file showReal pushed = calls.flatMap (text showReal)) ∧
      ∀ fault, logCalls calls = .error fault → fault = .assert := by
  induction calls using List.reverseRecOn with
  | nil =>
    refine ⟨⟨fun _ => by simp, fun _ => ⟨[], rfl⟩⟩, ?_, ?_⟩
    · rintro pushed hrun
      obtain rfl : [] = pushed := Except.ok.inj hrun
      rfl
    · intro fault hrun
      cases hrun
  | append_singleton calls call ih =>
    obtain ⟨hiff, htext, hfault⟩ := ih
    rw [logCalls_append]
    cases hcalls : logCalls calls with
    | error fault =>
      -- an earlier call has aborted
      have hnot : ¬ ∀ call ∈ calls, Matches call := by
        intro hall
        obtain ⟨pushed, hrun⟩ := hiff.mpr hall
        cases hcalls.symm.trans hrun
      rw [error_bind]
      refine ⟨⟨fun ⟨_, h⟩ => by (cases h), fun hall => absurd (fun c hc => ?_) hnot⟩,
        fun _ h => by (cases h), ?_⟩
      · exact hall c (List.mem_append_left _ hc)
      · intro fault' hrun
        cases hrun
        exact hfault fault hcalls
    | ok pushed =>
      have hall := hiff.mp ⟨pushed, hcalls⟩
      have hstep : log call.1 call.2 pushed = if Matches call then
          .ok (pushed ++ elements (parse call.1) call.2) else .error .assert := log_eq ..
      rw [ok_bind, hstep]
      by_cases hmatch : Matches call
      · rw [if_pos hmatch]
        refine ⟨⟨fun _ c hc => ?_, fun _ => ⟨_, rfl⟩⟩, ?_, fun _ h => by (cases h)⟩
        · rcases List.mem_append.mp hc with hc | hc
          · exact hall c hc
          · rw [List.mem_singleton.mp hc]
            exact hmatch
        · intro pushed' hrun
          obtain rfl := Except.ok.inj hrun
          rw [file_append, htext pushed hcalls, file_elements, List.flatMap_append,
            List.flatMap_singleton]
          rfl
      · rw [if_neg hmatch]
        refine ⟨⟨fun ⟨_, h⟩ => by (cases h), fun hall => absurd (hall call (by simp)) hmatch⟩,
          fun _ h => by (cases h), ?_⟩
        intro fault hrun
        cases hrun
        rfl

/-! ## Escaped text -/

/-- A text as a format string for itself. -/
def escape (t : List Char) : List Char := t.flatMap fun c => if c = '%' then ['%', '%'] else [c]

/-- **Any text can be logged.** -/
theorem log_escape (t : List Char) (pushed : List (LogElement F)) :
    log (escape t) [] pushed = .ok (pushed ++ t.map .CHAR) := by
  have hparse : holes (parse (escape t)) = 0 ∧
      elements (F := F) (parse (escape t)) [] = t.map .CHAR := by
    induction t with
    | nil => exact ⟨rfl, rfl⟩
    | cons c t ih =>
      obtain ⟨hholes, helements⟩ := ih
      by_cases hc : c = '%'
      · subst hc
        have hescape : escape ('%' :: t) = '%' :: '%' :: escape t := rfl
        rw [hescape, parse]
        exact ⟨hholes, congrArg _ helements⟩
      · have hescape : escape (c :: t) = c :: escape t := by
          simp [escape, hc]
        rw [hescape, parse]
        · exact ⟨hholes, congrArg _ helements⟩
        · exact fun _ heq => absurd heq hc
        · exact hc
  rw [log_eq, List.length_nil, if_pos hparse.1, hparse.2]

/-! ## The file -/

/-- The logging thread stores the elements one after the other. -/
structure Written (values : ℕ → LogElement F) (c : Channel (LogElement F)) : Prop where
  inv : c.Inv LOG_QUEUE_SIZE
  inOrder : c.InOrder
  written : c.written = (List.range c.written.length).map values

open Channel (ReadsInTime Party)

variable {values : ℕ → LogElement F} {c c' : Channel (LogElement F)}

theorem written_new (values : ℕ → LogElement F) (default : LogElement F) :
    Written values (.new LOG_QUEUE_SIZE default) where
  inv := Channel.inv_new ..
  inOrder := fun k v hv => by simp [Channel.new] at hv
  written := rfl

/-- A step of either thread. -/
theorem Written.step (h : Written values c) {party : Party}
    (htime : ReadsInTime LOG_QUEUE_SIZE c party) (hstep : c.step values party = .ok c') :
    Written values c' := by
  cases party with
  | producer =>
    obtain rfl := Except.ok.inj hstep
    refine ⟨h.inv.produce _, h.inOrder.produce _, ?_⟩
    unfold Channel.produce
    split
    · -- the element with the number of those before it
      show c.written ++ [values c.written.length] = _
      rw [List.length_append, List.length_singleton, List.range_succ, List.map_append, ← h.written]
      rfl
    · exact h.written
    · exact h.written
  | consumer =>
    obtain ⟨c'', hstep', h'⟩ := h.inv.consume
    obtain rfl := Except.ok.inj (hstep'.symm.trans hstep)
    refine ⟨h', h.inOrder.consume h.inv hstep htime, ?_⟩
    rw [(Channel.consume_cases hstep).1]
    exact h.written

/-- The queue is empty, as `~Logger` waits for, and the logging thread is between two elements:
then everything was read. -/
theorem Written.read_eq (h : Written values c) (hproducer : c.producer = .store)
    (hempty : c.queue.size = 0) : c.read = c.written := by
  have hconsumer : c.consumer = .test := by
    by_contra hne
    exact absurd hempty (Nat.ne_of_gt (h.inv.nonempty hne))
  have hnum := h.inv.num_elements
  rw [hproducer, hconsumer, show c.queue.num_elements_ = 0 from hempty] at hnum
  apply (Channel.inOrder_iff_isPrefix.mp h.inOrder).eq_of_length
  simpa [Channel.owedWrites, Channel.owedReads] using hnum

/-- Fewer steps than the queue has slots are not too many. -/
theorem along_readsInTime {schedule : List Party} :
    ∀ {c : Channel (LogElement F)}, c.written.length + schedule.length ≤ LOG_QUEUE_SIZE →
      Lib.Runs.Along (Channel.step values) (ReadsInTime LOG_QUEUE_SIZE) c schedule := by
  induction schedule with
  | nil =>
    intro c _
    trivial
  | cons party schedule ih =>
    intro c hfew
    rw [List.length_cons] at hfew
    refine ⟨fun slot _ _ => by omega, fun c' hstep => ih ?_⟩
    have hone : c'.written.length ≤ c.written.length + 1 := by
      cases party with
      | producer =>
        obtain rfl := Except.ok.inj hstep
        unfold Channel.produce
        split <;> simp
      | consumer =>
        rw [(Channel.consume_cases hstep).1]
        exact Nat.le_succ _
    omega

/-- **What comes into the log file.**  The logging thread gets through its calls exactly when each
has as many arguments as places for them.  Then, however it and the thread that writes the file
take their steps, as long as no element is overwritten before it is read, the file has the
beginning of the text of the calls, and all of it when the destructor finds the queue empty. -/
theorem log_file (showReal : F → List Char) (default : LogElement F)
    (calls : List (List Char × List (LogArg F))) :
    ((∃ es, logCalls calls = .ok es) ↔ ∀ call ∈ calls, Matches call) ∧
      ∀ es, logCalls calls = .ok es → ∀ schedule : List Party,
        Lib.Runs.Along (Channel.step fun k => es.getD k default) (ReadsInTime LOG_QUEUE_SIZE)
          (.new LOG_QUEUE_SIZE default) schedule →
        ∃ c, (Channel.new LOG_QUEUE_SIZE default).run (fun k => es.getD k default) schedule =
            .ok c ∧
          (c.written.length ≤ es.length →
            file showReal c.read <+: calls.flatMap (text showReal)) ∧
          (c.written.length = es.length → c.producer = .store → c.queue.size = 0 →
            file showReal c.read = calls.flatMap (text showReal)) := by
  obtain ⟨hiff, htext, -⟩ := logCalls_spec showReal calls
  refine ⟨hiff, fun es hes schedule htime => ?_⟩
  have hok : ∀ (c : Channel (LogElement F)) (party : Party),
      Written (fun k => es.getD k default) c → ReadsInTime LOG_QUEUE_SIZE c party →
      ∃ c', c.step (fun k => es.getD k default) party = .ok c' ∧
        Written (fun k => es.getD k default) c' := by
    intro c party h htime
    obtain ⟨c', hstep, -⟩ := h.inv.step (fun k => es.getD k default) party
    exact ⟨c', hstep, h.step htime hstep⟩
  obtain ⟨c, hrun, h⟩ := Lib.Runs.exists_ok hok (written_new _ default) htime
  have hpast : c.written.length ≤ es.length → c.written = es.take c.written.length := by
    intro hle
    rw [h.written]
    apply List.ext_getElem
    · simp [hle]
    · intro i hi hi'
      rw [List.length_map, List.length_range] at hi
      simp [List.getD_eq_getElem?_getD, List.getElem?_eq_getElem (hi.trans_le hle)]
  refine ⟨c, hrun, fun hle => ?_, fun hall hproducer hempty => ?_⟩
  · rw [← htext es hes]
    have hread : c.read <+: es := by
      refine (Channel.inOrder_iff_isPrefix.mp h.inOrder).trans ?_
      rw [hpast hle]
      exact List.take_prefix ..
    obtain ⟨rest, hrest⟩ := hread
    rw [← hrest, file_append]
    exact List.prefix_append ..
  · rw [h.read_eq hproducer hempty, hpast hall.le, hall, List.take_length, htext es hes]

/-- Two calls, with a placeholder each and an escaped percent sign. -/
def twoCalls : List (List Char × List (LogArg Empty)) :=
  [("id:%\n".toList, [.element (.INTEGER (-7))]), ("%%%".toList, [.text "ok".toList])]

theorem log_file_twoCalls :
    ∃ es, logCalls twoCalls = .ok es ∧ ∃ c,
      (Channel.new LOG_QUEUE_SIZE (.CHAR 'x')).run (fun k => es.getD k (.CHAR 'x'))
        [.producer, .producer, .producer, .consumer, .consumer] = .ok c ∧
      file Empty.elim c.read <+: "id:-7\n%ok".toList := by
  obtain ⟨hiff, hfile⟩ := log_file Empty.elim (.CHAR 'x') twoCalls
  obtain ⟨es, hes⟩ := hiff.mpr (by decide)
  have hlen : es.length = 8 := by
    have hcount : (logCalls twoCalls).toOption.map List.length = some 8 := by decide +kernel
    rw [hes] at hcount
    exact Option.some.inj hcount
  obtain ⟨c, hrun, hinitial, -⟩ := hfile es hes
    [.producer, .producer, .producer, .consumer, .consumer] (along_readsInTime (by decide))
  refine ⟨es, hes, c, hrun, ?_⟩
  have htext : twoCalls.flatMap (text Empty.elim) = "id:-7\n%ok".toList := by decide +kernel
  rw [← htext]
  apply hinitial
  rw [hlen]
  obtain rfl := Except.ok.inj hrun
  show 1 ≤ 8
  decide

end Logger

end TradingEcosystem
