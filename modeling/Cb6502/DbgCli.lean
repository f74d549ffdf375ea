import Mathlib.Data.List.Forall2
import Cb6502.Lib.CString
import Cb6502.Lib.Numeral

/- The command line of the debugger (frontend/dbgcli/src/dbgcli.c): `dbgcli_run`, which reads a line into
   a buffer and hands it to `parse_cmd`, and the handlers, as far as what they call. A parameter is a
   pointer into the buffer, where `strtok_r` has put the ends of the strings; an empty line runs the last
   command again, with these pointers, after the buffer was read into once more.

   What is proved:
     1. `parseCmd_of_words` (a command with the words of the line as its parameters).
     2. `dbgcli_session` (the calls of a session are those of a machine that keeps the words).
     3. `numbers_read_back` (what is taken for a number, and the addresses that are printed). -/
namespace Cb6502
open Printf (Text ascii)
open CString

def CMD_DELIM : BitVec 8 := 0x20
def MAX_PARAMS : Nat := 10
def newline : BitVec 8 := 0x0A

/-- The size of `inbuf`. -/
def inbufSize : Nat := 256

/-- The handlers. -/
inductive DbgCmd where
  | cmdContinue | cmdNext | cmdStep | cmdRegisters | cmdBreakpoint | cmdQuit | cmdExamine | cmdFinish
  deriving DecidableEq

/-- `dbg_cmd_t` -/
structure DbgCmdEntry where
  longcmd : Text
  shortcmd : BitVec 8
  handler : DbgCmd

/-- `dbg_cmd_list` -/
def dbgCmdList : List DbgCmdEntry :=
  [⟨ascii "continue", 0x63, .cmdContinue⟩, ⟨ascii "next", 0x6E, .cmdNext⟩, ⟨ascii "step", 0x73, .cmdStep⟩,
    ⟨ascii "registers", 0x72, .cmdRegisters⟩, ⟨ascii "breakpoint", 0x62, .cmdBreakpoint⟩,
    ⟨ascii "quit", 0x71, .cmdQuit⟩, ⟨ascii "examine", 0x78, .cmdExamine⟩, ⟨ascii "finish", 0x66, .cmdFinish⟩]

/-- `tolower` in the C locale. -/
def toLower (c : BitVec 8) : BitVec 8 := if 0x41 ≤ c ∧ c ≤ 0x5A then c + 0x20 else c

/-- `strcasecmp(a, b) == 0` -/
def strcasecmp (a b : Text) : Bool := a.map toLower = b.map toLower

/-- The entry that a token names: by its letter, or by its long name in upper or lower case. -/
def findCmd (token : Text) : Option DbgCmd :=
  (dbgCmdList.find? fun cmd =>
    if token.length = 1 then token.head? = some cmd.shortcmd else strcasecmp token cmd.longcmd).map
    DbgCmdEntry.handler

/-- The integer that a token is, if it is one as a whole. -/
def intOf (token : Text) : Option Int :=
  if (Numeral.strtol token).2 = [] then some (Numeral.strtol token).1 else none

/-- `cmd_param_t`: `ival` where `int_valid` is set, and the place of the string in the buffer. -/
structure CmdParam where
  sval : Nat
  ival : Option Int
  deriving DecidableEq

/-- The parameters as far as `*num_params` says. -/
abbrev CmdParams := List CmdParam

/-- `parse_cmd`: the command, its parameters, and the buffer with the ends of the tokens in it. -/
def parseCmd (input : Text) (params : CmdParams) : Option DbgCmd × CmdParams × Text :=
  if (str input 0).length = 0 then (none, params, input)
  else
    match strtokR CMD_DELIM input 0 with
    | (none, _, input) => (none, [], input)
    | (some token, saveptr, input) =>
      match findCmd (str input token) with
      | none => (none, [], input)
      | some cmd =>
        let (params, input) :=
          strtokAll CMD_DELIM (fun token text => ⟨token, intOf text⟩) MAX_PARAMS input saveptr
        (some cmd, params, input)

/-- The functions of the debugger that the handlers call, with the arguments. -/
inductive DbgCall where
  | run | next | step | finish | getCpuRegs | getBreakpoints
  | setBreakpointAddr (addr : BitVec 16)
  | setBreakpointLabel (label : Text)
  | dump (addr len : BitVec 16)
  | exit
  deriving DecidableEq

/-- What a handler does with parameters of which it looks at the integers and the strings. -/
def DbgCmd.handle (cmd : DbgCmd) (params : List (Option Int × Text)) : Option DbgCall :=
  match cmd with
  | .cmdContinue => some .run
  | .cmdNext => some .next
  | .cmdStep => some .step
  | .cmdFinish => some .finish
  | .cmdRegisters => some .getCpuRegs
  | .cmdQuit => some .exit
  | .cmdBreakpoint =>
    match params with
    | [] => some .getBreakpoints
    | (some ival, _) :: _ => some (.setBreakpointAddr (BitVec.ofInt 16 ival))
    | (none, sval) :: _ => some (.setBreakpointLabel sval)
  | .cmdExamine =>
    match params with
    | [(some addr, _)] => some (.dump (BitVec.ofInt 16 addr) 1)
    | (some addr, _) :: (some len, _) :: _ => some (.dump (BitVec.ofInt 16 addr) (BitVec.ofInt 16 len))
    | _ => none

/-- The parameters with the strings that they point at. -/
def CmdParams.read (params : CmdParams) (inbuf : Text) : List (Option Int × Text) :=
  params.map fun param => (param.ival, str inbuf param.sval)

/-- What a line leads to: a call, or the message about an unknown command. -/
inductive CliEvent where
  | call (c : DbgCall)
  | unknown
  deriving DecidableEq

/-- The state of `dbgcli_run` in front of a line. -/
structure DbgCli where
  inbuf : Text
  cmd : Option DbgCmd := none
  params : CmdParams := []
  exit : Bool := false

/-- What `size - 1` bytes have room for: the contents that successive calls of `fgets` deliver. -/
def fgetsAll (size : Nat) (stream : Text) : List Text := go [] stream
where
  go (got : Text) : Text → List Text
    | [] => if got = [] then [] else [got]
    | c :: rest =>
      if c = newline ∨ got.length + 2 = size then (got ++ [c]) :: go [] rest else go (got ++ [c]) rest

/-- The buffer after `fgets` put `got` into it and the newline was overwritten. -/
def readLine (inbuf got : Text) : Text :=
  let input := got ++ 0 :: inbuf.drop (got.length + 1)
  input.set ((str input 0).takeWhile (· ≠ newline)).length 0

/-- A turn of the loop, with what `fgets` delivers. -/
def DbgCli.line (s : DbgCli) (got : Text) : Option CliEvent × DbgCli :=
  let input := readLine s.inbuf got
  match if (str input 0).length = 0 then s.cmd else none with
  | some cmd =>
    -- the last command once more
    ((cmd.handle (s.params.read input)).map .call,
      { s with inbuf := input, exit := s.exit || cmd = .cmdQuit })
  | none =>
    match parseCmd input s.params with
    | (some cmd, params, input) =>
      ((cmd.handle (params.read input)).map .call,
        { inbuf := input, cmd := some cmd, params, exit := s.exit || cmd = .cmdQuit })
    | (none, params, input) => (some .unknown, { s with inbuf := input, cmd := none, params })

/-- `dbgcli_run`, from the loop on. -/
def DbgCli.run (s : DbgCli) : List Text → List CliEvent
  | [] => []
  | got :: rest =>
    if s.exit then []
    else
      let (event, s) := s.line got
      event.toList ++ s.run rest

/-! ## The machine that keeps the words -/

/-- A command with the words that are its parameters. -/
structure Command where
  cmd : DbgCmd
  args : List Text
  deriving DecidableEq

def Command.call (c : Command) : Option DbgCall := c.cmd.handle (c.args.map fun arg => (intOf arg, arg))

/-- The command that a line is. -/
def commandOf (line : Text) : Option Command :=
  match words CMD_DELIM line with
  | [] => none
  | name :: args => (findCmd name).map fun cmd => ⟨cmd, args.take MAX_PARAMS⟩

/-- The calls for a list of lines, of which an empty one is the last command once more. -/
def runLines (last : Option Command) : List Text → List CliEvent
  | [] => []
  | line :: rest =>
    match (if line = [] then last else none).or (commandOf line) with
    | none => .unknown :: runLines none rest
    | some c =>
      (c.call.map .call).toList ++ if c.cmd = .cmdQuit then [] else runLines (some c) rest

example : runLines none [ascii "b  0x10", [], ascii "Step"] =
    [.call (.setBreakpointAddr 16), .call (.setBreakpointAddr 16), .call .step] := by decide
/-! ## The parameters are the words -/

/-- The parameters point at these words, behind the first two bytes of the buffer. -/
def PointAt (inbuf : Text) (params : CmdParams) (args : List Text) : Prop :=
  List.Forall₂ (fun param arg => At inbuf param.sval arg ∧ 2 ≤ param.sval ∧ param.ival = intOf arg) params args

theorem PointAt.read {inbuf : Text} {params : CmdParams} {args : List Text} (h : PointAt inbuf params args) :
    params.read inbuf = args.map fun arg => (intOf arg, arg) := by
  induction h with
  | nil => rfl
  | cons hfirst _ ih =>
    obtain ⟨hat, -, hival⟩ := hfirst
    rw [CmdParams.read, List.map_cons, List.map_cons, hival, hat.str_eq]
    exact congrArg _ ih

/-- The tokens of a list of starts. -/
theorem pointAt_zipWith {inbuf : Text} {starts : List Nat} {args : List Text}
    (h : List.Forall₂ (At inbuf) starts args) (hbehind : ∀ start ∈ starts, 2 ≤ start) :
    PointAt inbuf (List.zipWith (fun token text => ⟨token, intOf text⟩) starts args) args := by
  induction h with
  | nil => exact .nil
  | cons hat _ ih =>
    refine .cons ⟨hat, hbehind _ List.mem_cons_self, rfl⟩ (ih fun start hstart => ?_)
    exact hbehind start (List.mem_cons_of_mem _ hstart)

theorem word_ne_nil {delim : BitVec 8} {text w : Text} {ws : List Text} (h : words delim text = w :: ws) :
    w ≠ [] := by
  have hmem : w ∈ words delim text := by
    rw [h]
    exact List.mem_cons_self
  exact of_decide_eq_true (List.mem_filter.mp hmem).2

/-- `parse_cmd` of a line: its first word names the command, the other words are the parameters. -/
theorem parseCmd_of_words {input line : Text} (h : At input 0 line) (old : CmdParams) :
    match commandOf line with
    | none => ∃ params input', parseCmd input old = (none, params, input')
    | some c => ∃ params input', parseCmd input old = (some c.cmd, params, input') ∧
        PointAt input' params c.args := by
  unfold parseCmd commandOf
  rw [h.str_eq]
  by_cases hempty : line.length = 0
  · rw [if_pos hempty, List.eq_nil_of_length_eq_zero hempty]
    exact ⟨_, _, rfl⟩
  · rw [if_neg hempty]
    cases hwords : words CMD_DELIM line with
    | nil =>
      obtain ⟨p', htok⟩ := strtokR_end h hwords
      rw [htok]
      exact ⟨_, _, rfl⟩
    | cons name args =>
      obtain ⟨start, p', input', rest, htok, hstart, hnext, hat, hrest, hargs, hfar, -⟩ :=
        strtokR_word h hwords
      rw [htok]
      dsimp only
      rw [hat.str_eq]
      cases findCmd name with
      | none => exact ⟨_, _, rfl⟩
      | some cmd =>
        have htokens :=
          strtokAll_words CMD_DELIM (fun token text => CmdParam.mk token (intOf text)) MAX_PARAMS hrest
        rw [hargs] at htokens
        obtain ⟨starts, hall, htaken, hle, -⟩ := htokens
        refine ⟨_, _, rfl, ?_⟩
        dsimp only
        rw [htaken]
        apply pointAt_zipWith hall
        -- in front of a parameter there are the name and an end of string
        intro token htoken
        rcases hfar with hfar | hnone
        · have hname := List.length_pos_iff.mpr (word_ne_nil hwords)
          have htoken := hle token htoken
          omega
        · rw [hnone, words_nil] at hargs
          rw [← hargs, List.take_nil] at hall
          cases hall
          exact absurd htoken List.not_mem_nil

/-! ## The loop -/

/-- What a call of `fgets` delivers for a line: the line, with its newline where there is room and the
input does not end. -/
inductive Delivers : Text → Text → Prop where
  | whole {line : Text} (hline : newline ∉ line) : Delivers line (line ++ [newline])
  | part {line : Text} (hline : newline ∉ line) (hne : line ≠ []) : Delivers line line

theorem line_plain {line : Text} (h : newline ∉ line) : ∀ c ∈ line, decide (c ≠ newline) = true := by
  intro c hc
  exact decide_eq_true fun heq => h (heq ▸ hc)

/-- What `fgets` put into the buffer. -/
theorem at_got {got : Text} (hnul : 0 ∉ got) (rest : Text) : At (got ++ 0 :: rest) 0 got :=
  ⟨hnul, rest, rfl⟩

/-- The buffer has the line, without the newline. -/
theorem readLine_at {line got : Text} (h : Delivers line got) (hnul : 0 ∉ got) (inbuf : Text) :
    At (readLine inbuf got) 0 line := by
  have hat := at_got hnul (inbuf.drop (got.length + 1))
  unfold readLine
  dsimp only
  rw [hat.str_eq]
  cases h with
  | whole hline =>
    have hstop : (line ++ [newline]).takeWhile (· ≠ newline) = line :=
      takeWhile_append_stop (line_plain hline) rfl []
    have hcut := hat.cut.1
    rw [Nat.zero_add] at hcut
    rw [hstop]
    exact hcut
  | part hline hne =>
    rw [List.takeWhile_eq_self_iff.mpr (line_plain hline), List.set_append, if_neg (Nat.lt_irrefl _),
      Nat.sub_self]
    exact hat

/-- The state of the loop with the last command of the other machine. -/
structure DbgCli.On (s : DbgCli) (last : Option Command) : Prop where
  cmd : s.cmd = last.map Command.cmd
  params : ∀ c ∈ last, PointAt s.inbuf s.params c.args

/-- An empty line writes the first two bytes of the buffer only. -/
theorem pointAt_empty {inbuf : Text} {params : CmdParams} {args : List Text}
    (h : PointAt inbuf params args) : PointAt (readLine inbuf [newline]) params args := by
  have hread : readLine inbuf [newline] = 0 :: 0 :: inbuf.drop 2 := rfl
  apply List.Forall₂.imp _ h
  rintro param arg ⟨⟨hnul, rest, hrest⟩, htwo, hival⟩
  refine ⟨⟨hnul, rest, ?_⟩, htwo, hival⟩
  obtain ⟨k, hk⟩ := Nat.exists_eq_add_of_le' htwo
  rw [← hrest, hread, hk, List.drop_succ_cons, List.drop_succ_cons, List.drop_drop]
  congr 1
  omega

/-- A turn of the loop is a line of the other machine. -/
theorem DbgCli.On.line {s : DbgCli} {last : Option Command} (h : s.On last) {line got : Text}
    (hgot : Delivers line got) (hnul : 0 ∉ got) :
    match (if line = [] then last else none).or (commandOf line) with
    | none => (s.line got).1 = some .unknown ∧ (s.line got).2.On none ∧ (s.line got).2.exit = s.exit
    | some c => (s.line got).1 = c.call.map .call ∧ (s.line got).2.On (some c) ∧
        (s.line got).2.exit = (s.exit || c.cmd = .cmdQuit) := by
  have hat := readLine_at hgot hnul s.inbuf
  have hparse := parseCmd_of_words hat s.params
  have hagain : (if (str (readLine s.inbuf got) 0).length = 0 then s.cmd else none) =
      (if line = [] then last else none).map Command.cmd := by
    rw [hat.str_eq, h.cmd]
    by_cases hline : line = []
    · rw [if_pos (List.length_eq_zero_iff.mpr hline), if_pos hline]
    · rw [if_neg fun hlen => hline (List.length_eq_zero_iff.mp hlen), if_neg hline]
      rfl
  unfold DbgCli.line
  dsimp only
  rw [hagain]
  cases hlast : (if line = [] then last else none) with
  | some c =>
    -- an empty line, with a command to repeat
    obtain ⟨hline, hc⟩ : line = [] ∧ last = some c := by
      split at hlast
      · rename_i hline
        exact ⟨hline, hlast⟩
      · cases hlast
    have hgotten : got = [newline] := by
      cases hgot with
      | whole _ => rw [hline]; rfl
      | part _ hne => exact absurd hline hne
    have hpoint := pointAt_empty (h.params c hc)
    rw [hgotten, Option.some_or, Option.map_some]
    dsimp only
    rw [hpoint.read]
    refine ⟨rfl, ⟨h.cmd.trans (congrArg _ hc), ?_⟩, rfl⟩
    rintro c' ⟨⟩
    exact hpoint
  | none =>
    rw [Option.none_or, Option.map_none]
    dsimp only
    cases hcommand : commandOf line with
    | none =>
      rw [hcommand] at hparse
      obtain ⟨params, input', hparsed⟩ := hparse
      rw [hparsed]
      exact ⟨rfl, ⟨rfl, by simp⟩, rfl⟩
    | some c =>
      rw [hcommand] at hparse
      obtain ⟨params, input', hparsed, hpoint⟩ := hparse
      rw [hparsed]
      dsimp only
      rw [hpoint.read]
      refine ⟨rfl, ⟨rfl, ?_⟩, rfl⟩
      rintro c' ⟨⟩
      exact hpoint

theorem DbgCli.run_exit {s : DbgCli} (h : s.exit = true) (gots : List Text) : s.run gots = [] := by
  cases gots with
  | nil => rfl
  | cons got gots => exact if_pos h

/-- The loop over what `fgets` delivers for some lines. -/
theorem DbgCli.On.run {s : DbgCli} {last : Option Command} (h : s.On last) (hexit : s.exit = false)
    {lines gots : List Text} (hgots : List.Forall₂ Delivers lines gots) (hnul : ∀ got ∈ gots, 0 ∉ got) :
    s.run gots = runLines last lines := by
  induction hgots generalizing s last with
  | nil => rfl
  | @cons line got lines gots hgot _ ih =>
    have hline := h.line hgot (hnul got List.mem_cons_self)
    have hlater := fun got hmem => hnul got (List.mem_cons_of_mem _ hmem)
    rw [DbgCli.run, runLines, if_neg (by rw [hexit]; exact Bool.false_ne_true)]
    dsimp only
    cases hcommand : (if line = [] then last else none).or (commandOf line) with
    | none =>
      rw [hcommand] at hline
      obtain ⟨hevent, hon, hexit'⟩ := hline
      rw [hevent, ih hon (hexit'.trans hexit) hlater]
      rfl
    | some c =>
      rw [hcommand] at hline
      obtain ⟨hevent, hon, hexit'⟩ := hline
      rw [hexit, Bool.false_or] at hexit'
      rw [hevent]
      dsimp only
      by_cases hquit : c.cmd = .cmdQuit
      · rw [if_pos hquit, DbgCli.run_exit (hexit'.trans (decide_eq_true hquit))]
      · rw [if_neg hquit, ih hon (hexit'.trans (decide_eq_false hquit)) hlater]

/-! ## What `fgets` delivers -/

/-- The line in what `fgets` delivers. -/
def lineIn (got : Text) : Text := got.takeWhile (· ≠ newline)

theorem fgetsAll_go {size : Nat} (hsize : 2 ≤ size) (stream : Text) {got : Text} (hgot : newline ∉ got)
    (hshort : got.length + 2 ≤ size) :
    (∀ piece ∈ fgetsAll.go size got stream, Delivers (lineIn piece) piece) ∧
      (fgetsAll.go size got stream).flatten = got ++ stream := by
  have hplain : ∀ {line : Text}, newline ∉ line → lineIn line = line :=
    fun hline => List.takeWhile_eq_self_iff.mpr (line_plain hline)
  induction stream generalizing got with
  | nil =>
    rw [fgetsAll.go]
    split
    · rename_i hnone
      rw [hnone]
      exact ⟨by simp, rfl⟩
    · rename_i hsome
      refine ⟨fun piece hpiece => ?_, by simp⟩
      obtain rfl := List.mem_singleton.mp hpiece
      rw [hplain hgot]
      exact .part hgot hsome
  | cons c rest ih =>
    obtain ⟨hlater, hrest⟩ := @ih [] List.not_mem_nil hsize
    rw [fgetsAll.go]
    split
    · rename_i hstop
      refine ⟨fun piece hpiece => ?_, ?_⟩
      · rcases List.mem_cons.mp hpiece with rfl | hpiece
        · by_cases hc : c = newline
          · have hline : lineIn (got ++ [c]) = got := by
              rw [hc]
              exact takeWhile_append_stop (line_plain hgot) rfl []
            rw [hline, hc]
            exact .whole hgot
          · have hnone : newline ∉ got ++ [c] := by simp [hgot, Ne.symm hc]
            rw [hplain hnone]
            exact .part hnone (by simp)
        · exact hlater piece hpiece
      · rw [List.flatten_cons, hrest]
        simp
    · rename_i hgo
      rw [not_or] at hgo
      obtain ⟨hall, hflat⟩ := @ih (got ++ [c]) (by simp [hgot, Ne.symm hgo.1])
        (by have hfull := hgo.2; simp only [List.length_append, List.length_singleton]; omega)
      refine ⟨hall, ?_⟩
      rw [hflat, List.append_assoc]
      rfl

theorem fgetsAll_delivers (stream : Text) :
    (∀ piece ∈ fgetsAll inbufSize stream, Delivers (lineIn piece) piece) ∧
      (fgetsAll inbufSize stream).flatten = stream :=
  fgetsAll_go (by decide) stream List.not_mem_nil (by decide)

/-- The lines of the input, as they come to lie in the buffer. -/
def linesOf (stream : Text) : List Text := (fgetsAll inbufSize stream).map lineIn

/-- The input of a user who ends each line with a newline. -/
def typed (lines : List Text) : Text := lines.flatMap (· ++ [newline])

theorem fgetsAll_line {size : Nat} {line : Text} (hline : newline ∉ line) {got : Text}
    (hshort : got.length + line.length + 2 ≤ size) (rest : Text) :
    fgetsAll.go size got (line ++ newline :: rest) = (got ++ line ++ [newline]) :: fgetsAll.go size [] rest := by
  induction line generalizing got with
  | nil =>
    rw [List.nil_append, List.append_nil, fgetsAll.go]
    exact if_pos (Or.inl rfl)
  | cons c line ih =>
    have hc : c ≠ newline := fun heq => hline (heq ▸ List.mem_cons_self)
    rw [List.length_cons] at hshort
    have hgo : ¬(c = newline ∨ got.length + 2 = size) := by
      rw [not_or]
      exact ⟨hc, by omega⟩
    rw [List.cons_append, fgetsAll.go, if_neg hgo, ih (fun hin => hline (List.mem_cons_of_mem _ hin))]
    · simp
    · simp only [List.length_append, List.length_singleton]
      omega

theorem linesOf_typed {lines : List Text} (h : ∀ line ∈ lines, newline ∉ line ∧ line.length + 2 ≤ inbufSize) :
    linesOf (typed lines) = lines := by
  induction lines with
  | nil => rfl
  | cons line lines ih =>
    obtain ⟨hline, hshort⟩ := h line List.mem_cons_self
    have hlater := ih fun l hl => h l (List.mem_cons_of_mem _ hl)
    have hfirst : fgetsAll inbufSize (typed (line :: lines)) =
        (line ++ [newline]) :: fgetsAll inbufSize (typed lines) := by
      rw [typed, List.flatMap_cons, List.append_assoc]
      exact fgetsAll_line hline (by simpa using hshort) _
    rw [linesOf, hfirst, List.map_cons]
    exact congrArg₂ List.cons (takeWhile_append_stop (line_plain hline) rfl []) hlater

/-- A session of the command line. Whatever is typed, the end of a string apart, the functions of the
debugger are called as by a machine that keeps the words of the last command: each line is the command
that its first word names, with up to ten further words as parameters, and an empty line is the last
command with the same parameters. Lines of up to 254 characters are the lines that are typed. -/
theorem dbgcli_session (stream : Text) (hnul : 0 ∉ stream) (inbuf : Text) :
    DbgCli.run { inbuf } (fgetsAll inbufSize stream) = runLines none (linesOf stream) ∧
    ∀ lines, (∀ line ∈ lines, newline ∉ line ∧ line.length + 2 ≤ inbufSize) → stream = typed lines →
      linesOf stream = lines := by
  obtain ⟨hall, hflat⟩ := fgetsAll_delivers stream
  have hstart : DbgCli.On { inbuf } none := ⟨rfl, by simp⟩
  refine ⟨hstart.run rfl ?_ fun got hgot hzero => hnul ?_, fun lines hshort htyped => ?_⟩
  · rw [linesOf, List.forall₂_map_left_iff, List.forall₂_same]
    exact hall
  · rw [← hflat]
    exact List.mem_flatten.mpr ⟨got, hgot, hzero⟩
  · rw [htyped]
    exact linesOf_typed hshort

theorem dbgcli_session_of_repeat :
    DbgCli.run ⟨[], none, [], false⟩ (fgetsAll inbufSize (typed [ascii "break", ascii " b main", [], ascii "q", []])) =
      [.unknown, .call (.setBreakpointLabel (ascii "main")), .call (.setBreakpointLabel (ascii "main")),
        .call .exit] := by
  have hsession := dbgcli_session (typed [ascii "break", ascii " b main", [], ascii "q", []]) (by decide) []
  rw [hsession.1, hsession.2 _ (by decide) rfl]
  decide

/-! ## Numbers -/

/-- An address as the list of breakpoints has it: `0x%04x`. -/
def shownAddr (addr : BitVec 16) : Text := ascii "0x" ++ Printf.hex 4 addr.toNat

theorem intOf_shownAddr (addr : BitVec 16) : intOf (shownAddr addr) = some (addr.toNat : Int) := by
  have hfits : addr.toNat < 16 ^ 4 := addr.isLt
  have hclamp : Numeral.clampLong (addr.toNat : Int) = addr.toNat := by
    unfold Numeral.clampLong
    omega
  rw [intOf, shownAddr, Numeral.strtol_hex (by decide) hfits, hclamp]
  rfl

theorem shownAddr_word (addr : BitVec 16) : CMD_DELIM ∉ shownAddr addr ∧ shownAddr addr ≠ [] := by
  have hfits : addr.toNat < 16 ^ 4 := addr.isLt
  have hdigits := (Numeral.hex_digits (n := 4) (by decide) hfits).1
  refine ⟨fun hin => ?_, by simp [shownAddr, ascii]⟩
  rcases List.mem_append.mp hin with hin | hin
  · exact absurd hin (by decide)
  · have hplain := (Numeral.digit_plain (hdigits _ hin)).1
    exact absurd hplain (by decide)

/-- What names a command is one word. -/
theorem findCmd_word {name : Text} {cmd : DbgCmd} (h : findCmd name = some cmd) :
    name ≠ [] ∧ CMD_DELIM ∉ name := by
  obtain ⟨e, hfind, -⟩ := Option.map_eq_some_iff.mp h
  have hentry := List.mem_of_find?_eq_some hfind
  have hnamed := List.find?_some hfind
  have htable : ∀ e ∈ dbgCmdList, e.shortcmd ≠ CMD_DELIM ∧ e.longcmd.map toLower ≠ [] ∧
      toLower CMD_DELIM ∉ e.longcmd.map toLower := by decide
  obtain ⟨hshort, hlong, hnoDelim⟩ := htable e hentry
  by_cases hone : name.length = 1
  · rw [if_pos hone] at hnamed
    obtain ⟨c, rfl⟩ := List.length_eq_one_iff.mp hone
    have hc : c = e.shortcmd := Option.some.inj (of_decide_eq_true hnamed)
    refine ⟨List.cons_ne_nil c [], fun hin => hshort ?_⟩
    rw [← hc, List.mem_singleton.mp hin]
  · rw [if_neg hone] at hnamed
    have hsame : name.map toLower = e.longcmd.map toLower := of_decide_eq_true hnamed
    rw [← hsame] at hlong hnoDelim
    exact ⟨fun hnil => hlong (by rw [hnil]; rfl), fun hin => hnoDelim (List.mem_map_of_mem hin)⟩

/-- What the command line takes for a number is a numeral of C, as a whole: white space, a sign, digits in
base 16, 8 or 10; its value is cut to a `long`. Any other parameter stays a text. And an address that the
list of breakpoints shows, typed as it is shown, sets a breakpoint at this address. -/
theorem dbgcli_numbers : (∀ token : Text, token ≠ [] → ∀ value, intOf token = some value ↔
      ∃ n : Numeral, n.text = token ∧ Numeral.clampLong n.value = value) ∧
    ∀ name, findCmd name = some .cmdBreakpoint → ∀ addr : BitVec 16,
      (commandOf (name ++ CMD_DELIM :: shownAddr addr)).bind Command.call = some (.setBreakpointAddr addr) := by
  refine ⟨fun token hne value => ?_, fun name hname addr => ?_⟩
  · constructor
    · intro hint
      unfold intOf at hint
      split at hint
      · rename_i hwhole
        obtain ⟨n, rfl⟩ := Numeral.numeral_of_strtol hne hwhole
        rw [Numeral.strtol_text] at hint
        exact ⟨n, rfl, Option.some.inj hint⟩
      · cases hint
    · rintro ⟨n, rfl, rfl⟩
      rw [intOf, Numeral.strtol_text]
      rfl
  · obtain ⟨hname', hdelim⟩ := findCmd_word hname
    have haddr := shownAddr_word addr
    have hwords : words CMD_DELIM (name ++ CMD_DELIM :: shownAddr addr) = [name, shownAddr addr] := by
      rw [words_append hname' hdelim, words_word haddr.2 haddr.1]
    have hcommand : commandOf (name ++ CMD_DELIM :: shownAddr addr) =
        some ⟨.cmdBreakpoint, [shownAddr addr]⟩ := by
      rw [commandOf, hwords]
      dsimp only
      rw [hname]
      rfl
    rw [hcommand, Option.bind_some, Command.call, List.map_cons, intOf_shownAddr]
    show some (DbgCall.setBreakpointAddr (BitVec.ofInt 16 addr.toNat)) = _
    rw [BitVec.ofInt_natCast, BitVec.ofNat_toNat, BitVec.setWidth_eq]

theorem dbgcli_numbers_of_breakpoint :
    (commandOf (ascii "BreakPoint" ++ CMD_DELIM :: shownAddr 0x0200)).bind Command.call =
      some (.setBreakpointAddr 0x0200) :=
  dbgcli_numbers.2 (ascii "BreakPoint") (by decide) 0x0200

end Cb6502
