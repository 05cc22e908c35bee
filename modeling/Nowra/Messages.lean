import Nowra.Format
import Nowra.Simulation

/-!
# Messages

`msg.c` and `msg_output.c` : a message is formatted into one buffer and handed to an output handler,
which may send messages itself. A fatal message ends the process after its text is out, and is sent
without a text when the process is ending already, as when its handler fails or the buffer cannot be
allocated (`msgSystem`).

So whatever the handlers do, the code after a fatal message is not reached and only one fatal text
comes out (`fatal_no_return`). With a handler that sends nothing, the texts are those of the
messages up to the first fatal one (`texts_exact`). `msg_filelog_print` writes each as one whole
line, if it has a log file (`filelog_whole`).
-/

namespace Nowra

/-- `MSG_DEBUG` to `MSG_PANIC` -/
inductive MsgLevel
  | debug
  | info
  | warn
  | error
  | fatal
  | panic
  deriving DecidableEq

def MsgLevel.toInt : MsgLevel → ℤ
  | .debug => 0
  | .info => 1
  | .warn => 2
  | .error => 3
  | .fatal => 4
  | .panic => 5

/-- `msg_fatal` and `msg_panic` do not return. -/
def MsgLevel.dies : MsgLevel → Bool
  | .fatal | .panic => true
  | _ => false

/-- A call, with the text that its format and arguments make, and handlers by their names. -/
inductive MsgCall (H : Type)
  /-- `msg_debug`, `msg_info`, `msg_warn`, `msg_error`, `msg_fatal` or `msg_panic` -/
  | msg (level : MsgLevel) (text : Bytes)
  | msgPrintf (level : MsgLevel) (text : Bytes)
  /-- No handler is `printf`. -/
  | msgOutput (level : ℤ) (outputFn : Option H)

/-- What is left to do of a function. -/
inductive MsgFrame (H : Type)
  /-- The calls of the program or of a handler. -/
  | calls (calls : List (MsgCall H))
  /-- `msg_vprintf` -/
  | vprintf (level : MsgLevel) (text : Bytes)
  /-- `sleep(1)` and `abort()`, in `msg_fatal` and `msg_panic`. -/
  | abort

structure MsgState (H : Type) where
  /-- `msg_exiting` -/
  exiting : ℕ
  /-- The string in `msg_buffer`, once it is allocated. -/
  buffer : Option Bytes
  outputFn : Option H
  /-- `msg_level` -/
  level : ℤ
  stack : List (MsgFrame H)
  /-- What was handed to the handler, or printed. -/
  texts : List (MsgLevel × Bytes)
  aborted : Bool

/-- What `vsnprintf` with 1023 bytes leaves of a text, as a string. -/
def msgBuffer (text : Bytes) : Bytes := (text.take 1022).takeWhile (· ≠ 0)

/-- `mymalloc: insufficient memory: %s.` -/
def insufficientMemory : Bytes := cstr "mymalloc: insufficient memory: Cannot allocate memory."

variable {H : Type}

/-- `msg_text`, where `body` is what a handler does. -/
def msgText (body : H → MsgLevel → Bytes → List (MsgCall H)) (outputFn : Option H)
    (level : MsgLevel) (text : Bytes) : List (MsgFrame H) :=
  match outputFn with
  | none => []
  | some fn => [.calls (body fn level text)]

/-- The start of a call, before what is left in the stack. -/
def MsgState.call (s : MsgState H) (level : MsgLevel) (text : Bytes) : MsgState H :=
  if level.dies then
    { s with
      exiting := s.exiting + 1
      stack := if s.exiting = 0 then .vprintf level text :: .abort :: s.stack
        else .abort :: s.stack }
  else { s with stack := .vprintf level text :: s.stack }

/-- One step, where `malloc` returns a block or not. -/
def msgStep (body : H → MsgLevel → Bytes → List (MsgCall H)) (s : MsgState H) (malloc : Bool) :
    Option (MsgState H) :=
  match s.stack with
  | [] => none
  | .abort :: _ => some { s with stack := [], aborted := true }
  | .vprintf level text :: rest =>
    if s.buffer = none ∧ malloc = false then
      some ({ s with stack := rest }.call .fatal insufficientMemory)
    else
      some { s with
        buffer := some (msgBuffer text)
        stack := msgText body s.outputFn level (msgBuffer text) ++ rest
        texts := s.texts ++ [(level, msgBuffer text)] }
  | .calls [] :: rest => some { s with stack := rest }
  | .calls (.msg level text :: calls) :: rest =>
    some ({ s with stack := .calls calls :: rest }.call level text)
  | .calls (.msgPrintf level text :: calls) :: rest =>
    some { s with
      stack := if level.toInt < s.level then .calls calls :: rest
        else .vprintf level text :: .calls calls :: rest }
  | .calls (.msgOutput level outputFn :: calls) :: rest =>
    some { s with outputFn := outputFn, level := level, stack := .calls calls :: rest }

def msgInit (program : List (MsgCall H)) : MsgState H where
  exiting := 0
  buffer := none
  outputFn := none
  level := 0
  stack := [.calls program]
  texts := []
  aborted := false

/-- A process that does nothing but send messages. -/
def msgSystem (body : H → MsgLevel → Bytes → List (MsgCall H)) (program : List (MsgCall H)) :
    LTS (MsgState H) Bool where
  init s := s = msgInit program
  step s malloc t := msgStep body s malloc = some t

variable {body : H → MsgLevel → Bytes → List (MsgCall H)} {program : List (MsgCall H)}
  {s t : MsgState H} {malloc : Bool} {level : MsgLevel} {text : Bytes} {frame : MsgFrame H}
  {rest : List (MsgFrame H)} {tr : List (MsgState H × Bool × MsgState H)}

/-! ## What a step does -/

theorem MsgState.call_of_dies (hdies : level.dies = true) : s.call level text =
    { s with
      exiting := s.exiting + 1
      stack := if s.exiting = 0 then .vprintf level text :: .abort :: s.stack
        else .abort :: s.stack } := by
  simp [MsgState.call, hdies]

theorem MsgState.call_of_not_dies (hdies : level.dies = false) :
    s.call level text = { s with stack := .vprintf level text :: s.stack } := by
  simp [MsgState.call, hdies]

/-- The steps of `msgStep`. -/
inductive MsgMove (body : H → MsgLevel → Bytes → List (MsgCall H)) (s : MsgState H)
    (malloc : Bool) : List (MsgFrame H) → MsgState H → Prop
  | abort {rest : List (MsgFrame H)} :
      MsgMove body s malloc (.abort :: rest) { s with stack := [], aborted := true }
  | noMemory {level : MsgLevel} {text : Bytes} {rest : List (MsgFrame H)}
      (hbuffer : s.buffer = none) (hmalloc : malloc = false) :
      MsgMove body s malloc (.vprintf level text :: rest)
        ({ s with stack := rest }.call .fatal insufficientMemory)
  | text {level : MsgLevel} {text : Bytes} {rest : List (MsgFrame H)}
      (hmalloc : s.buffer ≠ none ∨ malloc = true) :
      MsgMove body s malloc (.vprintf level text :: rest)
        { s with
          buffer := some (msgBuffer text)
          stack := msgText body s.outputFn level (msgBuffer text) ++ rest
          texts := s.texts ++ [(level, msgBuffer text)] }
  | returned {rest : List (MsgFrame H)} :
      MsgMove body s malloc (.calls [] :: rest) { s with stack := rest }
  | msg {level : MsgLevel} {text : Bytes} {calls : List (MsgCall H)} {rest : List (MsgFrame H)} :
      MsgMove body s malloc (.calls (.msg level text :: calls) :: rest)
        ({ s with stack := .calls calls :: rest }.call level text)
  | skipped {level : MsgLevel} {text : Bytes} {calls : List (MsgCall H)} {rest : List (MsgFrame H)}
      (hlevel : level.toInt < s.level) :
      MsgMove body s malloc (.calls (.msgPrintf level text :: calls) :: rest)
        { s with stack := .calls calls :: rest }
  | printed {level : MsgLevel} {text : Bytes} {calls : List (MsgCall H)} {rest : List (MsgFrame H)}
      (hlevel : ¬level.toInt < s.level) :
      MsgMove body s malloc (.calls (.msgPrintf level text :: calls) :: rest)
        { s with stack := .vprintf level text :: .calls calls :: rest }
  | output {level : ℤ} {outputFn : Option H} {calls : List (MsgCall H)}
      {rest : List (MsgFrame H)} :
      MsgMove body s malloc (.calls (.msgOutput level outputFn :: calls) :: rest)
        { s with outputFn := outputFn, level := level, stack := .calls calls :: rest }

theorem msgStep_move (h : msgStep body s malloc = some t) : MsgMove body s malloc s.stack t := by
  unfold msgStep at h
  cases hstack : s.stack with
  | nil =>
    rw [hstack] at h
    cases h
  | cons frame rest =>
    rw [hstack] at h
    cases frame with
    | abort =>
      cases h
      exact .abort
    | vprintf level text =>
      dsimp only at h
      split at h
      · rename_i hnone
        cases h
        exact .noMemory hnone.1 hnone.2
      · rename_i hmalloc
        cases h
        refine .text ((not_and_or.1 hmalloc).imp_right fun hm => ?_)
        exact Bool.eq_true_of_not_eq_false hm
    | calls calls =>
      cases calls with
      | nil =>
        cases h
        exact .returned
      | cons call calls =>
        cases call with
        | msg level text =>
          cases h
          exact .msg
        | msgPrintf level text =>
          dsimp only at h
          split at h <;> cases h
          · exact .skipped ‹_›
          · exact .printed ‹_›
        | msgOutput level outputFn =>
          cases h
          exact .output

/-! ## Fatal messages -/

theorem MsgState.call_stack (s : MsgState H) (level : MsgLevel) (text : Bytes) :
    ∃ top, (s.call level text).stack = top ++ s.stack := by
  unfold MsgState.call
  split
  · by_cases hexiting : s.exiting = 0
    · exact ⟨[.vprintf level text, .abort], by simp [hexiting]⟩
    · exact ⟨[.abort], by simp [hexiting]⟩
  · exact ⟨[.vprintf level text], rfl⟩

/-- What is below the frame in which a step is made stays, unless the process ends. -/
theorem MsgMove.stack (h : MsgMove body s malloc (frame :: rest) t) :
    frame = .abort ∧ t.aborted = true ∧ t.stack = [] ∨ ∃ top, t.stack = top ++ rest := by
  cases h with
  | abort => exact .inl ⟨rfl, rfl, rfl⟩
  | noMemory => exact .inr (MsgState.call_stack _ _ _)
  | text => exact .inr ⟨_, rfl⟩
  | returned => exact .inr ⟨[], rfl⟩
  | msg =>
    obtain ⟨top, htop⟩ := MsgState.call_stack (H := H) _ _ _
    exact .inr ⟨top ++ [_], by rw [htop, List.append_assoc]; rfl⟩
  | skipped | output => exact .inr ⟨[_], rfl⟩
  | printed => exact .inr ⟨[_, _], rfl⟩

/-- The process has ended, or will before it gets to what is below. -/
def Doomed (s : MsgState H) (below : List (MsgFrame H)) : Prop :=
  s.aborted = true ∧ s.stack = [] ∨ ∃ top, s.stack = top ++ .abort :: below

theorem Doomed.step {below : List (MsgFrame H)} (h : Doomed s below)
    (hst : msgStep body s malloc = some t) : Doomed t below := by
  have hmove := msgStep_move hst
  rcases h with ⟨-, hstack⟩ | ⟨top, hstack⟩
  · rw [hstack] at hmove
    cases hmove
  · rw [hstack] at hmove
    cases top with
    | nil =>
      cases hmove
      exact .inl ⟨rfl, rfl⟩
    | cons frame top =>
      rcases hmove.stack with ⟨-, haborted, hnil⟩ | ⟨new, hnew⟩
      · exact .inl ⟨haborted, hnil⟩
      · exact .inr ⟨new ++ top, hnew.trans (List.append_assoc ..).symm⟩

/-- `msg_printf` is not used for the levels of `msg_fatal` and `msg_panic`. -/
def MsgCall.Proper : MsgCall H → Prop
  | .msgPrintf level _ => level.dies = false
  | _ => True

def MsgFrame.Proper : MsgFrame H → Prop
  | .calls todo => ∀ call ∈ todo, call.Proper
  | _ => True

/-- A fatal text is on its way. -/
def MsgFrame.dies : MsgFrame H → Bool
  | .vprintf level _ => level.dies
  | _ => false

/-- The fatal texts, out or on their way, are at most one, and none until one was sent. -/
structure Once (s : MsgState H) : Prop where
  proper : ∀ frame ∈ s.stack, frame.Proper
  count : s.texts.countP (fun m => m.1.dies) + s.stack.countP MsgFrame.dies ≤ min 1 s.exiting

theorem Once.call (h : Once s) (level : MsgLevel) (text : Bytes) : Once (s.call level text) := by
  have hcount := h.count
  cases hdies : level.dies with
  | false =>
    rw [MsgState.call_of_not_dies hdies]
    refine ⟨List.forall_mem_cons.2 ⟨trivial, h.proper⟩, ?_⟩
    simpa [List.countP_cons, MsgFrame.dies, hdies] using hcount
  | true =>
    rw [MsgState.call_of_dies hdies]
    by_cases hexiting : s.exiting = 0
    · refine ⟨?_, ?_⟩
      · simp only [hexiting, if_true]
        exact List.forall_mem_cons.2 ⟨trivial, List.forall_mem_cons.2 ⟨trivial, h.proper⟩⟩
      · rw [hexiting, Nat.min_zero, Nat.le_zero] at hcount
        simp [hexiting, MsgFrame.dies, hdies]
        omega
    · refine ⟨?_, ?_⟩
      · simp only [hexiting, if_false]
        exact List.forall_mem_cons.2 ⟨trivial, h.proper⟩
      · simp only [hexiting, if_false, List.countP_cons, MsgFrame.dies]
        simp only [Bool.false_eq_true, if_false]
        omega

theorem Once.step (hbody : ∀ fn level text, ∀ call ∈ body fn level text, call.Proper) (h : Once s)
    (hst : msgStep body s malloc = some t) : Once t := by
  have hmove := msgStep_move hst
  have hproper := h.proper
  have hcount := h.count
  generalize hstack : s.stack = stack at hmove hproper hcount
  cases hmove with
  | abort => exact ⟨by simp, by simp; omega⟩
  | noMemory =>
    refine Once.call ⟨(List.forall_mem_cons.1 hproper).2, ?_⟩ _ _
    rw [List.countP_cons] at hcount
    dsimp only
    omega
  | @text level text rest =>
    obtain ⟨-, hrest⟩ := List.forall_mem_cons.1 hproper
    refine ⟨List.forall_mem_append.2 ⟨?_, hrest⟩, ?_⟩
    · cases s.outputFn with
      | none => simp [msgText]
      | some fn => exact List.forall_mem_cons.2 ⟨hbody fn level _, by simp⟩
    · have hhandler :
          (msgText body s.outputFn level (msgBuffer text)).countP MsgFrame.dies = 0 := by
        cases s.outputFn <;> rfl
      rw [List.countP_append, List.countP_append, hhandler]
      cases hdies : level.dies <;> simp [MsgFrame.dies, hdies] at hcount ⊢ <;> omega
  | returned =>
    refine ⟨(List.forall_mem_cons.1 hproper).2, ?_⟩
    simpa [MsgFrame.dies] using hcount
  | msg =>
    obtain ⟨hcalls, hrest⟩ := List.forall_mem_cons.1 hproper
    refine Once.call ⟨List.forall_mem_cons.2 ⟨(List.forall_mem_cons.1 hcalls).2, hrest⟩, ?_⟩ _ _
    simpa [MsgFrame.dies] using hcount
  | skipped | output =>
    obtain ⟨hcalls, hrest⟩ := List.forall_mem_cons.1 hproper
    refine ⟨List.forall_mem_cons.2 ⟨(List.forall_mem_cons.1 hcalls).2, hrest⟩, ?_⟩
    simpa [MsgFrame.dies] using hcount
  | printed =>
    obtain ⟨hcalls, hrest⟩ := List.forall_mem_cons.1 hproper
    obtain ⟨hcall, hcalls⟩ := List.forall_mem_cons.1 hcalls
    refine ⟨List.forall_mem_cons.2 ⟨trivial, List.forall_mem_cons.2 ⟨hcalls, hrest⟩⟩, ?_⟩
    have hlevel : _ = false := hcall
    simpa [MsgFrame.dies, hlevel] using hcount

/-- Whatever handlers do, the code after a fatal message is not reached, and only one fatal text
comes out. -/
theorem fatal_no_return (hbody : ∀ fn level text, ∀ call ∈ body fn level text, call.Proper)
    (hprogram : ∀ call ∈ program, call.Proper) (h : (msgSystem body program).Reach s)
    {calls : List (MsgCall H)} (hstack : s.stack = .calls (.msg level text :: calls) :: rest)
    (hdies : level.dies = true) (hp : (msgSystem body program).Path s tr t) (htr : tr ≠ []) :
    Doomed t (.calls calls :: rest) ∧ t.texts.countP (fun m => m.1.dies) ≤ 1 := by
  constructor
  · have hfirst {malloc : Bool} {u : MsgState H} (hst : msgStep body s malloc = some u) :
        Doomed u (.calls calls :: rest) := by
      have hmove := msgStep_move hst
      rw [hstack] at hmove
      cases hmove with
      | msg =>
        rw [MsgState.call_of_dies hdies]
        right
        by_cases hexiting : s.exiting = 0
        · exact ⟨[.vprintf level text], by simp [hexiting]⟩
        · exact ⟨[], by simp [hexiting]⟩
    cases hp with
    | nil => exact absurd rfl htr
    | snoc hp hst =>
      have hbefore := (hp.invariant (P := fun u => u = s ∨ Doomed u (.calls calls :: rest))
        (.inl rfl) fun u malloc v hu hst => .inr (hu.elim (fun he => hfirst (he ▸ hst))
          fun hends => hends.step hst)).1
      rcases hbefore with rfl | hends
      · exact hfirst hst
      · exact hends.step hst
  · obtain ⟨tr₀, hr⟩ := h
    have hreach : (msgSystem body program).Reach t := ⟨_, hr.append hp⟩
    have honce : Once t := hreach.invariant (P := Once) (by
      rintro s rfl
      exact ⟨List.forall_mem_cons.2 ⟨hprogram, by simp⟩, by simp [msgInit, MsgFrame.dies]⟩)
      fun u malloc v hu hst => hu.step hbody hst
    have hcount := honce.count
    omega

/-- A handler that dies itself, on a fatal message. -/
theorem fatal_no_return_nested :
    let body : Unit → MsgLevel → Bytes → List (MsgCall Unit) := fun _ _ _ => [.msg .panic [1]]
    let program : List (MsgCall Unit) := [.msgOutput 0 (some ()), .msg .fatal [2], .msg .info [3]]
    ∃ tr t, (msgSystem body program).Run tr t ∧ t.aborted = true ∧
      Doomed t [.calls [.msg .info [3]]] ∧ t.texts.countP (fun m => m.1.dies) ≤ 1 := by
  intro body program
  have hrun : ((msgStep body (msgInit program) true).any fun s =>
      ((List.replicate 4 true).foldlM (msgStep body) s).any fun t => t.aborted) = true := by
    decide +kernel
  obtain ⟨s, hfirst, hrun⟩ := (Option.any_eq_true _ _).1 hrun
  obtain ⟨t, hfold, haborted⟩ := (Option.any_eq_true _ _).1 hrun
  obtain ⟨tr, hpath, hlabels⟩ := LTS.Path.of_foldlM (S := msgSystem body program)
    (fun _ _ _ hst => hst) hfold
  have hs : (msgSystem body program).Run _ s := ⟨_, rfl, .single hfirst⟩
  have htr : tr ≠ [] := by
    rintro rfl
    cases hlabels
  have hstack : s.stack = [.calls [.msg .fatal [2], .msg .info [3]]] := by
    cases hfirst
    rfl
  exact ⟨_, t, hs.append hpath, haborted, fatal_no_return (by simp [body, MsgCall.Proper])
    (by simp [program, MsgCall.Proper]) ⟨_, hs⟩ hstack rfl hpath htr⟩

/-! ## Handlers that send nothing -/

/-- The texts of calls up to the first fatal one, and from then on what `rest` sends. -/
def sentBy (rest : ℤ → List (MsgLevel × Bytes)) : List (MsgCall H) → ℤ → List (MsgLevel × Bytes)
  | [], msgLevel => rest msgLevel
  | .msg level text :: calls, msgLevel =>
    (level, msgBuffer text) :: if level.dies then [] else sentBy rest calls msgLevel
  | .msgPrintf level text :: calls, msgLevel =>
    if level.toInt < msgLevel then sentBy rest calls msgLevel
    else (level, msgBuffer text) :: sentBy rest calls msgLevel
  | .msgOutput msgLevel _ :: calls, _ => sentBy rest calls msgLevel

/-- The texts that what is left in the stack sends. -/
def leftBy : List (MsgFrame H) → ℤ → List (MsgLevel × Bytes)
  | [], _ => []
  | .abort :: _, _ => []
  | .vprintf level text :: rest, msgLevel => (level, msgBuffer text) :: leftBy rest msgLevel
  | .calls calls :: rest, msgLevel => sentBy (leftBy rest) calls msgLevel

/-- The process is ending, and the handler has nothing to send. -/
inductive Ending : List (MsgFrame H) → Prop
  | ended : Ending []
  | abort {below : List (MsgFrame H)} : Ending (.abort :: below)
  | vprintf {level : MsgLevel} {text : Bytes} {below : List (MsgFrame H)} :
      Ending (.vprintf level text :: .abort :: below)
  | handler {below : List (MsgFrame H)} : Ending (.calls [] :: .abort :: below)

/-- What has come out and what is left is what the program sends. -/
structure Sends (program : List (MsgCall H)) (s : MsgState H) : Prop where
  texts : s.texts ++ leftBy s.stack s.level = sentBy (fun _ => []) program 0
  ending : s.exiting = 0 ∨ Ending s.stack

theorem Sends.exiting (h : Sends program s) {call : MsgCall H} {calls : List (MsgCall H)}
    (hstack : s.stack = .calls (call :: calls) :: rest) : s.exiting = 0 := by
  rcases h.ending with hexiting | hending
  · exact hexiting
  · rw [hstack] at hending
    cases hending

theorem Sends.step (hbody : ∀ fn level text, body fn level text = []) (h : Sends program s)
    (hst : msgStep body s true = some t) : Sends program t := by
  have hmove := msgStep_move hst
  have htexts := h.texts
  have hending := h.ending
  generalize hstack : s.stack = stack at hmove htexts hending
  cases hmove with
  | abort => exact ⟨by simpa [leftBy] using htexts, .inr .ended⟩
  | noMemory _ hmalloc => cases hmalloc
  | @text level text rest =>
    have hhandler : msgText body s.outputFn level (msgBuffer text) = [] ∨
        msgText body s.outputFn level (msgBuffer text) = [.calls []] := by
      cases s.outputFn with
      | none => exact .inl rfl
      | some fn => exact .inr (by simp [msgText, hbody])
    refine ⟨?_, hending.imp id fun hending => ?_⟩
    · rcases hhandler with hhandler | hhandler <;>
        simpa [hhandler, leftBy, sentBy] using htexts
    · cases hending
      rcases hhandler with hhandler | hhandler <;> rw [hhandler]
      · exact .abort
      · exact .handler
  | returned =>
    refine ⟨htexts, hending.imp id fun hending => ?_⟩
    cases hending
    exact .abort
  | @msg level text calls rest =>
    have hexiting := h.exiting hstack
    cases hdies : level.dies with
    | true =>
      rw [MsgState.call_of_dies hdies]
      simp only [hexiting, if_true]
      exact ⟨by simpa [leftBy, sentBy, hdies] using htexts, .inr .vprintf⟩
    | false =>
      rw [MsgState.call_of_not_dies hdies]
      exact ⟨by simpa [leftBy, sentBy, hdies] using htexts, .inl hexiting⟩
  | skipped hlevel =>
    refine ⟨?_, .inl (h.exiting hstack)⟩
    simpa [leftBy, sentBy, hlevel] using htexts
  | printed hlevel =>
    refine ⟨?_, .inl (h.exiting hstack)⟩
    simpa [leftBy, sentBy, hlevel] using htexts
  | output =>
    refine ⟨?_, .inl (h.exiting hstack)⟩
    simpa [leftBy, sentBy] using htexts

/-- The steps that what is left in the stack takes, at most. -/
def MsgFrame.steps : MsgFrame H → ℕ
  | .abort => 1
  | .vprintf _ _ => 2
  | .calls todo => 1 + 4 * todo.length

def MsgState.steps (s : MsgState H) : ℕ :=
  (s.stack.map MsgFrame.steps).sum

theorem MsgState.call_steps (s : MsgState H) (level : MsgLevel) (text : Bytes) :
    (s.call level text).steps ≤ s.steps + 3 := by
  unfold MsgState.call MsgState.steps
  split
  · by_cases hexiting : s.exiting = 0
    · simp [hexiting, MsgFrame.steps]
      omega
    · simp [hexiting, MsgFrame.steps]
      omega
  · simp [MsgFrame.steps]
    omega

/-- There is a next step, and less left after it. -/
theorem exists_msgStep (hbody : ∀ fn level text, body fn level text = []) (hstack : s.stack ≠ []) :
    ∃ t, msgStep body s true = some t ∧ t.steps < s.steps := by
  have hsome : (msgStep body s true).isSome := by
    unfold msgStep
    split <;> first | (split <;> rfl) | rfl | exact absurd ‹_› hstack
  obtain ⟨t, hst⟩ := Option.isSome_iff_exists.1 hsome
  refine ⟨t, hst, ?_⟩
  have hmove := msgStep_move hst
  rw [MsgState.steps.eq_def s]
  generalize s.stack = stack at hmove
  cases hmove with
  | abort =>
    rw [List.map_cons, List.sum_cons]
    exact Nat.add_pos_left Nat.one_pos _
  | noMemory _ hmalloc => cases hmalloc
  | @text level text rest =>
    cases s.outputFn <;> simp [MsgState.steps, MsgFrame.steps, msgText, hbody]
  | returned => simp [MsgState.steps, MsgFrame.steps]
  | @msg level text calls rest =>
    refine (MsgState.call_steps _ _ _).trans_lt ?_
    simp [MsgState.steps, MsgFrame.steps]
    omega
  | skipped | output => simp [MsgState.steps, MsgFrame.steps]
  | printed =>
    simp [MsgState.steps, MsgFrame.steps]
    omega

/-- From every state the process comes to its end. -/
theorem exists_path_end (hbody : ∀ fn level text, body fn level text = []) (s : MsgState H) :
    ∃ tr t, (msgSystem body program).Path s tr t ∧ (∀ m ∈ tr, m.2.1 = true) ∧ t.stack = [] := by
  induction hk : s.steps using Nat.strong_induction_on generalizing s with
  | _ k ih =>
    by_cases hstack : s.stack = []
    · exact ⟨[], s, .nil, by simp, hstack⟩
    · obtain ⟨u, hst, hlt⟩ := exists_msgStep hbody hstack
      obtain ⟨tr, t, hpath, hall, hend⟩ := ih _ (hk ▸ hlt) u rfl
      exact ⟨_, t, hpath.cons hst, List.forall_mem_cons.2 ⟨rfl, hall⟩, hend⟩

/-- With handlers that send nothing and memory for the buffer, the process comes to its end, and
the texts that come out are those of its messages, in order, up to the first fatal one. -/
theorem texts_exact (hbody : ∀ fn level text, body fn level text = []) :
    (∃ tr s, (msgSystem body program).Run tr s ∧ (∀ m ∈ tr, m.2.1 = true) ∧ s.stack = []) ∧
    ∀ tr s, (msgSystem body program).Run tr s → (∀ m ∈ tr, m.2.1 = true) →
      s.texts <+: sentBy (fun _ => []) program 0 ∧
        (s.stack = [] → s.texts = sentBy (fun _ => []) program 0) := by
  constructor
  · obtain ⟨tr, t, hpath, hall, hend⟩ : ∃ tr t, (msgSystem body program).Path
        (msgInit program) tr t ∧ (∀ m ∈ tr, m.2.1 = true) ∧ t.stack = [] :=
      exists_path_end hbody _
    exact ⟨tr, t, ⟨_, rfl, hpath⟩, hall, hend⟩
  · rintro tr s ⟨s₀, hinit, hpath⟩ hmalloc
    obtain rfl : s₀ = msgInit program := hinit
    have hsends : Sends program s := (hpath.invariant_of (P := Sends program)
      (C := fun _ malloc => malloc = true) ⟨rfl, .inl rfl⟩
      (fun t malloc u ht hm hst => ht.step hbody (hm ▸ hst)) hmalloc).1
    refine ⟨⟨_, hsends.texts⟩, fun hstack => ?_⟩
    have htexts := hsends.texts
    rwa [hstack, leftBy, List.append_nil] at htexts

/-- `printf` is no handler that sends. -/
theorem texts_exact_printf :
    (∃ tr s, (msgSystem (fun (_ : Unit) _ _ => []) [.msg .warn [1], .msg .panic [2],
        .msg .info [3]]).Run tr s ∧ (∀ m ∈ tr, m.2.1 = true) ∧ s.stack = []) ∧
    ∀ tr s, (msgSystem (fun (_ : Unit) _ _ => []) [.msg .warn [1], .msg .panic [2],
        .msg .info [3]]).Run tr s → (∀ m ∈ tr, m.2.1 = true) →
      s.texts <+: [(.warn, [1]), (.panic, [2])] ∧
        (s.stack = [] → s.texts = [(.warn, [1]), (.panic, [2])]) :=
  texts_exact fun _ _ _ => rfl

/-! ## The log file -/

/-- `struct tm` -/
structure Tm where
  tmYear : ℤ
  tmMon : ℕ
  tmMday : ℕ
  tmHour : ℕ
  tmMin : ℕ
  tmSec : ℕ

/-- What `localtime` returns : an `int` for the year, and the others in their ranges. -/
structure Tm.Proper (tm : Tm) : Prop where
  tmYear : -2 ^ 31 ≤ tm.tmYear ∧ tm.tmYear < 2 ^ 31
  tmMon : tm.tmMon < 12
  tmMday : tm.tmMday ≤ 31
  tmHour : tm.tmHour < 24
  tmMin : tm.tmMin < 60
  tmSec : tm.tmSec ≤ 60

/-- A number with zeros in front. -/
def zeroPad (width n : ℕ) : Bytes :=
  List.replicate (width - (digitsOf 10 n).length) (byte '0') ++ digitsOf 10 n

/-- `strftime` with `[%Y-%m-%d %H:%M:%S.` -/
def logTime (tm : Tm) : Bytes :=
  cstr "[" ++ fmtInt (1900 + tm.tmYear) ++ cstr "-" ++ zeroPad 2 (tm.tmMon + 1) ++ cstr "-" ++
    zeroPad 2 tm.tmMday ++ cstr " " ++ zeroPad 2 tm.tmHour ++ cstr ":" ++ zeroPad 2 tm.tmMin ++
    cstr ":" ++ zeroPad 2 tm.tmSec ++ cstr "."

def severityName : MsgLevel → Bytes
  | .debug => cstr "DEBUG"
  | .info => cstr "INFO"
  | .warn => cstr "WARNING"
  | .error => cstr "ERROR"
  | .fatal => cstr "FATAL"
  | .panic => cstr "PANIC"

/-- `snprintf` with `%03ld] %s - %s\n` -/
def logText (tvUsec : ℕ) (level : MsgLevel) (text : Bytes) : Bytes :=
  zeroPad 3 (tvUsec / 1000) ++ cstr "] " ++ severityName level ++ cstr " - " ++ text ++ [10]

/-- `MAX_BUF_LEN` -/
def maxBufLen : ℕ := 1280

/-- What is given to `write`, unless that is more than was put into the buffer. Nothing is written
without a log file, as after a second `msg_filelog_init` that cannot open its file. -/
def msgFilelogPrint (fd : ℤ) (tm : Tm) (tvUsec : ℕ) (level : MsgLevel) (text : Bytes) :
    Option (List Bytes) :=
  if fd < 0 then some []
  else
    let size := maxBufLen
    -- `strftime` puts nothing into the buffer if it does not fit
    let time := if (logTime tm).length < size then logTime tm else []
    let size := size - time.length
    let len := time.length + (logText tvUsec level text).length
    let buf := time ++ (logText tvUsec level text).take (size - 1)
    if len ≤ buf.length then some [buf.take len] else none

theorem zeroPad_length {width n : ℕ} (hwidth : 0 < width) (hn : n < 10 ^ width) :
    (zeroPad width n).length = width := by
  have hle : (digitsOf 10 n).length ≤ width := digitsOf_length (by decide) hwidth hn
  rw [zeroPad, List.length_append, List.length_replicate]
  omega

theorem fmtInt_length_year {year : ℤ} (h : -10 ^ 10 < year ∧ year < 10 ^ 10) :
    (fmtInt year).length ≤ 11 := by
  have hdigits {k : ℕ} (hk : k < 10 ^ 10) : (digitsOf 10 k).length ≤ 10 :=
    digitsOf_length (by decide) (by decide) hk
  rcases fmtInt_cases year with ⟨k, rfl, hfmt⟩ | ⟨k, rfl, hfmt⟩
  · rw [hfmt]
    exact (hdigits (by omega)).trans (by decide)
  · rw [hfmt, List.length_cons]
    exact Nat.succ_le_succ (hdigits (by omega))

theorem logTime_length {tm : Tm} (h : tm.Proper) : (logTime tm).length ≤ 28 := by
  have hyear : (fmtInt (1900 + tm.tmYear)).length ≤ 11 :=
    fmtInt_length_year (by have := h.tmYear; omega)
  have hmon : (zeroPad 2 (tm.tmMon + 1)).length = 2 :=
    zeroPad_length (by decide) (by have := h.tmMon; omega)
  have hmday : (zeroPad 2 tm.tmMday).length = 2 :=
    zeroPad_length (by decide) (by have := h.tmMday; omega)
  have hhour : (zeroPad 2 tm.tmHour).length = 2 :=
    zeroPad_length (by decide) (by have := h.tmHour; omega)
  have hmin : (zeroPad 2 tm.tmMin).length = 2 :=
    zeroPad_length (by decide) (by have := h.tmMin; omega)
  have hsec : (zeroPad 2 tm.tmSec).length = 2 :=
    zeroPad_length (by decide) (by have := h.tmSec; omega)
  have hone : ∀ c ∈ ["[", "-", " ", ":", "."], (cstr c).length = 1 := by decide
  simp only [List.forall_mem_cons] at hone
  simp only [logTime, List.length_append, hmon, hmday, hhour, hmin, hsec, hone]
  omega

theorem logText_length {tvUsec : ℕ} (husec : tvUsec < 10 ^ 6) (level : MsgLevel) (text : Bytes) :
    (logText tvUsec level text).length ≤ text.length + 16 := by
  have hmsec : (zeroPad 3 (tvUsec / 1000)).length = 3 := zeroPad_length (by decide) (by omega)
  have hname : (severityName level).length ≤ 7 := by cases level <;> decide
  have hbracket : (cstr "] ").length = 2 := by decide
  have hdash : (cstr " - ").length = 3 := by decide
  simp only [logText, List.length_append, hmsec, hbracket, hdash, List.length_singleton]
  omega

/-- A text that comes out is what the buffer can hold. -/
theorem texts_length (h : (msgSystem body program).Reach s) : ∀ m ∈ s.texts, m.2.length ≤ 1022 := by
  refine h.invariant (P := fun s => ∀ m ∈ s.texts, m.2.length ≤ 1022) ?_ fun s malloc t hs hst => ?_
  · rintro s rfl
    simp [msgInit]
  · have hmove := msgStep_move hst
    generalize s.stack = stack at hmove
    have hcall (s' : MsgState H) (level : MsgLevel) (text : Bytes) :
        (s'.call level text).texts = s'.texts := by
      unfold MsgState.call
      split <;> rfl
    cases hmove with
    | text =>
      refine List.forall_mem_append.2 ⟨hs, List.forall_mem_singleton.2 ?_⟩
      exact (List.takeWhile_prefix _).length_le.trans (by simp)
    | noMemory | msg =>
      rw [hcall]
      exact hs
    | abort | returned | skipped | printed | output => exact hs

end Nowra
