import RtHypervisor.Verified.CString
import RtHypervisor.Verified.Run

/-!
# Line editing in the shell

The loop of `finsh_thread_entry` takes one byte after the other and edits `line` in place: the
text, `line_position` and `line_curpos` are kept apart, and `cmd_history` has a row for each
recalled line.  Every access to the two arrays is checked, the reads of a printed string included.

An `Editor` is a string with a cursor and a list of earlier strings.  `Related` says what the
arrays are to them; each key keeps it as long as the line does not fill up.  `msh_auto_complete`
is a parameter.
-/

namespace RtHypervisor.Ports.ShellLine

open RtHypervisor.Verified
open RtHypervisor.Verified.CString
open RtHypervisor.Verified.Run

def finshCmdSize : Nat := 80
def finshHistoryLines : Nat := 5

/-- `sizeof(shell->line)`. -/
def lineSize : Nat := finshCmdSize + 1

/-! ## Keys -/

inductive InputStat
  | waitNormal
  | waitSpecKey
  | waitFuncKey

inductive Key
  | none
  | up
  | down
  | left
  | right
  | tab
  | backspace
  | lineEnd
  | char (ch : Byte)

/-- A byte outside of a control sequence. -/
def plainKey (ch : Byte) : Key :=
  if ch = 0 ∨ ch = 0xff then .none
  else if ch = 0x09 then .tab
  else if ch = 0x7f ∨ ch = 0x08 then .backspace
  else if ch = 0x0d ∨ ch = 0x0a then .lineEnd
  else .char ch

/-- The state of the control sequence after a byte, and what the byte stands for. -/
def decode (stat : InputStat) (ch : Byte) : InputStat × Key :=
  if ch = 0x1b then (.waitSpecKey, .none)
  else
    match stat with
    | .waitNormal => (.waitNormal, plainKey ch)
    | .waitSpecKey => if ch = 0x5b then (.waitFuncKey, .none) else (.waitNormal, plainKey ch)
    | .waitFuncKey =>
        if ch = 0x41 then (.waitNormal, .up)
        else if ch = 0x42 then (.waitNormal, .down)
        else if ch = 0x44 then (.waitNormal, .left)
        else if ch = 0x43 then (.waitNormal, .right)
        else (.waitNormal, plainKey ch)

/-! ## The shell -/

/-- A call of `msh_exec`: the string at `cmd` and `length`. -/
structure Exec where
  cmd : List Byte
  length : Nat
deriving DecidableEq

/-- `struct finsh_shell`, and the calls of `msh_exec` so far. -/
structure Shell where
  stat : InputStat
  echoMode : Bool
  currentHistory : Nat
  historyCount : Nat
  cmdHistory : Nat → Nat → Byte
  line : Nat → Byte
  linePosition : Nat
  lineCurpos : Nat
  executed : List Exec

/-- The cells up to `last` are in `shell->line`. -/
def inLine (last : Nat) : Except Fault Unit := check .outOfBounds (last ≤ lineSize)

/-- The row is in `shell->cmd_history`. -/
def inHistory (row : Nat) : Except Fault Unit := check .outOfBounds (row < finshHistoryLines)

/-- Reading a string in `shell->line`. -/
def lineLength (shell : Shell) (start : Nat) : Except Fault Nat :=
  match strlen lineSize shell.line start with
  | some k => pure k
  | none => throw .outOfBounds

/-- A 16-bit counter is incremented or decremented. -/
def incr16 (x : Nat) : Nat := (x + 1) % 2 ^ 16
def decr16 (x : Nat) : Nat := (x + (2 ^ 16 - 1)) % 2 ^ 16

/-- `rt_memcpy(&shell->cmd_history[row][0], src, k)` after the row has been cleared. -/
def storeRow (cmdHistory : Nat → Nat → Byte) (row : Nat) (src : Nat → Byte) (k : Nat) :
    Except Fault (Nat → Nat → Byte) := do
  inHistory row
  check .outOfBounds (k ≤ finshCmdSize)
  pure (Function.update cmdHistory row (memcpy zeros src k))

/-- The loop that moves the rows up by one. -/
def moveRows (cmdHistory : Nat → Nat → Byte) : Nat → Nat → Nat → Byte := fun rows =>
  (List.range rows).foldl (fun h index => Function.update h index
    (memcpy (h index) (h (index + 1)) finshCmdSize)) cmdHistory

/-- `shell_push_history`. -/
def shellPushHistory (shell : Shell) : Except Fault Shell := do
  let shell ←
    if shell.linePosition ≠ 0 then
      if finshHistoryLines ≤ shell.historyCount then
        if !same finshCmdSize (shell.cmdHistory (finshHistoryLines - 1)) shell.line then do
          let moved := moveRows shell.cmdHistory (finshHistoryLines - 1)
          let cmdHistory ←
            storeRow moved (finshHistoryLines - 1) shell.line shell.linePosition
          pure { shell with cmdHistory, historyCount := finshHistoryLines }
        else pure shell
      else if shell.historyCount = 0 ∨
          (!same finshCmdSize (shell.cmdHistory (shell.historyCount - 1)) shell.line) = true then do
        let cmdHistory ←
          storeRow shell.cmdHistory shell.historyCount shell.line shell.linePosition
        pure { shell with cmdHistory, historyCount := incr16 shell.historyCount }
      else pure shell
    else pure shell
  pure { shell with currentHistory := shell.historyCount }

/-- Copy the history command. -/
def recallLine (shell : Shell) : Except Fault Shell := do
  inHistory shell.currentHistory
  let shell := { shell with
    line := memcpy shell.line (shell.cmdHistory shell.currentHistory) finshCmdSize }
  let k ← lineLength shell 0
  pure { shell with linePosition := k % 2 ^ 16, lineCurpos := k % 2 ^ 16 }

def upKey (shell : Shell) : Except Fault Shell :=
  if 0 < shell.currentHistory then
    recallLine { shell with currentHistory := decr16 shell.currentHistory }
  else pure { shell with currentHistory := 0 }

/-- The difference is of type `int`. -/
def downKey (shell : Shell) : Except Fault Shell :=
  if (shell.currentHistory : Int) < shell.historyCount - 1 then
    recallLine { shell with currentHistory := incr16 shell.currentHistory }
  else if shell.historyCount ≠ 0 then
    recallLine { shell with currentHistory := decr16 shell.historyCount }
  else pure shell

def leftKey (shell : Shell) : Shell :=
  if shell.lineCurpos ≠ 0 then { shell with lineCurpos := decr16 shell.lineCurpos } else shell

def rightKey (shell : Shell) : Except Fault Shell :=
  if shell.lineCurpos < shell.linePosition then do
    inLine (shell.lineCurpos + 1)
    pure { shell with lineCurpos := incr16 shell.lineCurpos }
  else pure shell

def backspaceKey (shell : Shell) : Except Fault Shell :=
  if shell.lineCurpos = 0 then pure shell
  else
    let position := decr16 shell.linePosition
    let curpos := decr16 shell.lineCurpos
    let shell := { shell with linePosition := position, lineCurpos := curpos }
    if curpos < position then do
      inLine (curpos + 1 + (position - curpos))
      inLine (position + 1)
      let moved := memmove shell.line curpos (curpos + 1) (position - curpos)
      let shell := { shell with line := Function.update moved position 0 }
      let _ ← lineLength shell curpos
      pure shell
    else do
      inLine (position + 1)
      pure { shell with line := Function.update shell.line position 0 }

def lineEndKey (shell : Shell) : Except Fault Shell := do
  let shell ← shellPushHistory shell
  let k ← lineLength shell 0
  let exec := { cmd := (List.range k).map shell.line, length := shell.linePosition }
  pure { shell with
    executed := shell.executed ++ [exec]
    line := zeros
    linePosition := 0
    lineCurpos := 0 }

/-- The character is put into the line. -/
def storeChar (shell : Shell) (ch : Byte) : Except Fault Shell :=
  let position := shell.linePosition
  let curpos := shell.lineCurpos
  if curpos < position then do
    inLine (curpos + 1 + (position - curpos))
    let moved := memmove shell.line (curpos + 1) curpos (position - curpos)
    let shell := { shell with line := Function.update moved curpos ch }
    if shell.echoMode then do
      let _ ← lineLength shell curpos
      pure shell
    else pure shell
  else do
    inLine (position + 1)
    pure { shell with line := Function.update shell.line position ch }

def charKey (shell : Shell) (ch : Byte) : Except Fault Shell := do
  let shell :=
    if finshCmdSize ≤ shell.linePosition then { shell with linePosition := 0 } else shell
  let shell ← storeChar shell ch
  let shell := { shell with
    linePosition := incr16 shell.linePosition
    lineCurpos := incr16 shell.lineCurpos }
  -- clear command line
  if finshCmdSize ≤ shell.linePosition then
    pure { shell with linePosition := 0, lineCurpos := 0 }
  else pure shell

section Loop

variable (mshAutoComplete : (Nat → Byte) → Nat → Byte)

def tabKey (shell : Shell) : Except Fault Shell := do
  let shell := { shell with line := mshAutoComplete shell.line }
  let k ← lineLength shell 0
  pure { shell with linePosition := k % 2 ^ 16, lineCurpos := k % 2 ^ 16 }

def handleKey (shell : Shell) : Key → Except Fault Shell
  | .none => pure shell
  | .up => upKey shell
  | .down => downKey shell
  | .left => pure (leftKey shell)
  | .right => rightKey shell
  | .tab => tabKey mshAutoComplete shell
  | .backspace => backspaceKey shell
  | .lineEnd => lineEndKey shell
  | .char ch => charKey shell ch

/-- A round of the loop of `finsh_thread_entry`; without a byte `finsh_getchar` has returned
a negative number. -/
def handleByte (shell : Shell) : Option Byte → Except Fault Shell
  | none => pure shell
  | some ch =>
      let (stat, key) := decode shell.stat ch
      handleKey mshAutoComplete { shell with stat } key

end Loop

/-- The shell when the loop begins. -/
def Shell.initial : Shell where
  stat := .waitNormal
  echoMode := true
  currentHistory := 0
  historyCount := 0
  cmdHistory := fun _ => zeros
  line := zeros
  linePosition := 0
  lineCurpos := 0
  executed := []

/-! ## The editor -/

/-- A string with a cursor, and the earlier strings. -/
structure Editor where
  stat : InputStat
  text : List Byte
  cursor : Nat
  history : List (List Byte)
  current : Nat
  executed : List Exec

/-- An earlier string is put in place of the text. -/
def Editor.recallLine (ed : Editor) (current : Nat) : Editor :=
  let text := ed.history.getD current []
  { ed with current, text, cursor := text.length }

/-- The text becomes the last of at most `FINSH_HISTORY_LINES` strings, unless it is empty or
already the last. -/
def Editor.push (ed : Editor) : List (List Byte) :=
  if ed.text = [] ∨ ed.history.getLast? = some ed.text then ed.history
  else if finshHistoryLines ≤ ed.history.length then ed.history.tail ++ [ed.text]
  else ed.history ++ [ed.text]

def Editor.insert (ed : Editor) (ch : Byte) : Editor :=
  let text := ed.text.insertIdx ed.cursor ch
  if finshCmdSize ≤ text.length then { ed with text := [], cursor := 0 }
  else { ed with text, cursor := ed.cursor + 1 }

def Editor.key (ed : Editor) : Key → Editor
  | .none => ed
  | .up => if ed.current = 0 then ed else ed.recallLine (ed.current - 1)
  | .down =>
      if ed.history = [] then ed else ed.recallLine (min (ed.current + 1) (ed.history.length - 1))
  | .left => { ed with cursor := ed.cursor - 1 }
  | .right => { ed with cursor := min (ed.cursor + 1) ed.text.length }
  | .tab => ed
  | .backspace =>
      if ed.cursor = 0 then ed
      else { ed with text := ed.text.eraseIdx (ed.cursor - 1), cursor := ed.cursor - 1 }
  | .lineEnd =>
      { ed with
        history := ed.push
        current := ed.push.length
        executed := ed.executed ++ [{ cmd := ed.text, length := ed.text.length }]
        text := []
        cursor := 0 }
  | .char ch => ed.insert ch

def Editor.byte (ed : Editor) : Option Byte → Editor
  | none => ed
  | some ch => { ed with stat := (decode ed.stat ch).1 }.key (decode ed.stat ch).2

def Editor.initial : Editor where
  stat := .waitNormal
  text := []
  cursor := 0
  history := []
  current := 0
  executed := []

/-! ## The shell beside the editor -/

structure Session where
  shell : Shell
  editor : Editor

def Session.initial : Session := ⟨.initial, .initial⟩

def step (mshAutoComplete : (Nat → Byte) → Nat → Byte) (s : Session) (ch : Option Byte) :
    Except Fault Session := do
  let shell ← handleByte mshAutoComplete s.shell ch
  pure ⟨shell, s.editor.byte ch⟩

/-- The positions are in range, the line is zero behind its text, and what was executed is what
was edited. -/
structure Faithful (s : Session) : Prop where
  cursor : s.shell.lineCurpos ≤ s.shell.linePosition
  position : s.shell.linePosition < finshCmdSize
  current : s.shell.currentHistory ≤ s.shell.historyCount
  count : s.shell.historyCount ≤ finshHistoryLines
  zero : ∀ i, s.shell.linePosition ≤ i → i < lineSize → s.shell.line i = 0
  executed : s.shell.executed = s.editor.executed

/-- A character that is to be put into the line leaves it shorter than `FINSH_CMD_SIZE`. -/
def Fits (s : Session) : Option Byte → Prop
  | none => True
  | some ch => ∀ c, (decode s.shell.stat ch).2 = .char c → s.shell.linePosition + 1 < finshCmdSize

instance (s : Session) : ∀ ch, Decidable (Fits s ch)
  | none => isTrue trivial
  | some ch =>
      match h : (decode s.shell.stat ch).2 with
      | .char _ => decidable_of_iff (s.shell.linePosition + 1 < finshCmdSize) (by simp [Fits, h])
      | .none | .up | .down | .left | .right | .tab | .backspace | .lineEnd =>
          isTrue (by simp [Fits, h])

/-! ## The arrays hold what is edited -/

structure Related (shell : Shell) (ed : Editor) : Prop where
  stat : shell.stat = ed.stat
  line : Stores lineSize shell.line ed.text
  short : ed.text.length < finshCmdSize
  position : shell.linePosition = ed.text.length
  curpos : shell.lineCurpos = ed.cursor
  cursor : ed.cursor ≤ ed.text.length
  count : shell.historyCount = ed.history.length
  lines : ed.history.length ≤ finshHistoryLines
  rows : ∀ i text, ed.history[i]? = some text → Stores finshCmdSize (shell.cmdHistory i) text
  current : shell.currentHistory = ed.current
  recalled : ed.current ≤ ed.history.length
  executed : shell.executed = ed.executed

private theorem incr16_eq {x : Nat} (h : x + 1 < 2 ^ 16) : incr16 x = x + 1 :=
  Nat.mod_eq_of_lt h

private theorem decr16_eq {x : Nat} (hpos : 0 < x) (h : x < 2 ^ 16) : decr16 x = x - 1 := by
  have hsum : x + (2 ^ 16 - 1) = x - 1 + 2 ^ 16 := by omega
  rw [decr16, hsum, Nat.add_mod_right, Nat.mod_eq_of_lt (by omega)]

private theorem inLine_ok {last : Nat} (h : last ≤ lineSize) : inLine last = .ok () :=
  check_eq_ok.mpr (decide_eq_true h)

private theorem inHistory_ok {row : Nat} (h : row < finshHistoryLines) : inHistory row = .ok () :=
  check_eq_ok.mpr (decide_eq_true h)

private theorem lineLength_ok {shell : Shell} {text : List Byte} {start : Nat}
    (h : Stores lineSize shell.line text) (hstart : start ≤ text.length) :
    lineLength shell start = .ok (text.length - start) := by
  rw [lineLength, h.strlen hstart]
  rfl

section Keys

variable {shell : Shell} {ed : Editor}

theorem Related.length_lt (h : Related shell ed) : ed.text.length < 2 ^ 16 :=
  h.short.trans (by decide)

theorem Related.row_lt (h : Related shell ed) {i : Nat} (hi : i < ed.history.length) :
    i < finshHistoryLines :=
  hi.trans_le h.lines

/-- A recalled line takes the place of the text. -/
theorem Related.recallLine (h : Related shell ed) {i : Nat} (hi : i < ed.history.length) :
    ∃ shell', recallLine { shell with currentHistory := i } = .ok shell' ∧
      Related shell' (ed.recallLine i) := by
  have hrow := h.rows i _ (List.getElem?_eq_getElem hi)
  have hget : ed.history.getD i [] = ed.history[i] := List.getD_eq_getElem _ _ hi
  have hfits := hrow.fits
  -- behind a row the line has one cell, which is zero
  have hline : Stores lineSize (memcpy shell.line (shell.cmdHistory i) finshCmdSize)
      ed.history[i] := by
    refine hrow.memcpy hfits.le le_rfl (hfits.trans (Nat.lt_succ_self _)) fun j hj hjn => ?_
    exact h.line.zero (h.short.le.trans hj) hjn
  have hmod : (ed.history[i].length - 0) % 2 ^ 16 = ed.history[i].length :=
    Nat.mod_eq_of_lt (hfits.trans (by decide))
  refine ⟨{ shell with
    currentHistory := i
    line := memcpy shell.line (shell.cmdHistory i) finshCmdSize
    linePosition := (ed.history[i].length - 0) % 2 ^ 16
    lineCurpos := (ed.history[i].length - 0) % 2 ^ 16 }, ?_, ?_⟩
  · simp only [ShellLine.recallLine]
    rw [inHistory_ok (h.row_lt hi), ok_bind, lineLength_ok hline (Nat.zero_le _)]
    rfl
  · simp only [Editor.recallLine, hget, hmod]
    exact { h with
      line := hline
      short := hfits
      position := rfl
      curpos := rfl
      cursor := le_rfl
      current := rfl
      recalled := hi.le }

theorem Related.upKey (h : Related shell ed) :
    ∃ shell', upKey shell = .ok shell' ∧ Related shell' (ed.key .up) := by
  have hcurrent := h.current
  have hrecalled := h.recalled
  have hlines := h.lines
  unfold ShellLine.upKey
  by_cases hzero : ed.current = 0
  · rw [if_neg (by omega)]
    refine ⟨_, rfl, ?_⟩
    simp only [Editor.key, if_pos hzero]
    exact { h with current := hzero.symm }
  · have hlt : shell.currentHistory < 2 ^ 16 := by
      have hsmall : finshHistoryLines < 2 ^ 16 := by decide
      omega
    rw [if_pos (by omega), decr16_eq (by omega) hlt, hcurrent]
    simp only [Editor.key, if_neg hzero]
    exact h.recallLine (by omega)

theorem Related.downKey (h : Related shell ed) :
    ∃ shell', downKey shell = .ok shell' ∧ Related shell' (ed.key .down) := by
  have hcurrent := h.current
  have hcount := h.count
  have hlines := h.lines
  have hsmall : finshHistoryLines < 2 ^ 16 := by decide
  unfold ShellLine.downKey
  by_cases hnil : ed.history = []
  · have hzero : ed.history.length = 0 := by rw [hnil]; rfl
    rw [if_neg (by omega), if_neg (by omega)]
    refine ⟨shell, rfl, ?_⟩
    simp only [Editor.key, if_pos hnil]
    exact h
  · have hpos : 0 < ed.history.length := List.length_pos_iff.mpr hnil
    simp only [Editor.key, if_neg hnil]
    by_cases hnext : ed.current + 1 < ed.history.length
    · rw [if_pos (by omega), incr16_eq (by omega), hcurrent, Nat.min_eq_left (by omega)]
      exact h.recallLine hnext
    · have hlast : decr16 shell.historyCount = ed.history.length - 1 := by
        rw [decr16_eq (by omega) (by omega), hcount]
      rw [if_neg (by omega), if_pos (by omega), hlast, Nat.min_eq_right (by omega)]
      exact h.recallLine (by omega)

theorem Related.leftKey (h : Related shell ed) : Related (leftKey shell) (ed.key .left) := by
  have hcurpos := h.curpos
  have hcursor := h.cursor
  have hlength := h.length_lt
  unfold ShellLine.leftKey
  split
  · rename_i hpos
    have hdec : decr16 shell.lineCurpos = ed.cursor - 1 := by
      rw [decr16_eq (by omega) (by omega), hcurpos]
    rw [hdec]
    exact { h with
      curpos := rfl
      cursor := by
        simp only [Editor.key]
        omega }
  · exact { h with
      curpos := by
        simp only [Editor.key]
        omega
      cursor := by
        simp only [Editor.key]
        omega }

theorem Related.rightKey (h : Related shell ed) :
    ∃ shell', rightKey shell = .ok shell' ∧ Related shell' (ed.key .right) := by
  have hcurpos := h.curpos
  have hcursor := h.cursor
  have hposition := h.position
  have hlength := h.length_lt
  have hshort := h.short
  unfold ShellLine.rightKey
  split
  · have hcells : shell.lineCurpos + 1 ≤ lineSize := by
      simp only [lineSize]
      omega
    rw [inLine_ok hcells]
    refine ⟨_, rfl, ?_⟩
    exact { h with
      curpos := by
        simp only [Editor.key]
        rw [incr16_eq (by omega), hcurpos, Nat.min_eq_left (by omega)]
      cursor := Nat.min_le_right _ _ }
  · refine ⟨shell, rfl, ?_⟩
    exact { h with
      curpos := by
        simp only [Editor.key]
        omega
      cursor := Nat.min_le_right _ _ }

theorem Related.backspaceKey (h : Related shell ed) :
    ∃ shell', backspaceKey shell = .ok shell' ∧ Related shell' (ed.key .backspace) := by
  have hcurpos := h.curpos
  have hcursor := h.cursor
  have hposition := h.position
  have hlength := h.length_lt
  have hshort := h.short
  unfold ShellLine.backspaceKey
  by_cases hzero : ed.cursor = 0
  · rw [if_pos (by omega)]
    refine ⟨shell, rfl, ?_⟩
    simp only [Editor.key, if_pos hzero]
    exact h
  · rw [if_neg (by omega)]
    have hpos : decr16 shell.linePosition = ed.text.length - 1 := by
      rw [decr16_eq (by omega) (by omega), hposition]
    have hcur : decr16 shell.lineCurpos = ed.cursor - 1 := by
      rw [decr16_eq (by omega) (by omega), hcurpos]
    have hc : ed.cursor - 1 < ed.text.length := by omega
    have herase := h.line.erase hc
    rw [Nat.sub_add_cancel (by omega : 1 ≤ ed.cursor)] at herase
    have hlen : (ed.text.eraseIdx (ed.cursor - 1)).length = ed.text.length - 1 :=
      List.length_eraseIdx_of_lt hc
    simp only [Editor.key, if_neg hzero, hpos, hcur, Nat.sub_add_cancel (by omega : 1 ≤ ed.cursor)]
    have hrelated : ∀ line, Stores lineSize line (ed.text.eraseIdx (ed.cursor - 1)) →
        Related { shell with
            linePosition := ed.text.length - 1, lineCurpos := ed.cursor - 1, line }
          { ed with text := ed.text.eraseIdx (ed.cursor - 1), cursor := ed.cursor - 1 } := by
      intro line hline
      exact { h with
        line := hline
        short := by
          simp only
          omega
        position := hlen.symm
        curpos := rfl
        cursor := by
          simp only
          omega }
    by_cases hmove : ed.cursor - 1 < ed.text.length - 1
    · have hcells : ed.cursor + (ed.text.length - 1 - (ed.cursor - 1)) ≤ lineSize := by
        simp only [lineSize]
        omega
      have hlast : ed.text.length - 1 + 1 ≤ lineSize := by
        simp only [lineSize]
        omega
      rw [if_pos hmove, inLine_ok hcells, ok_bind, inLine_ok hlast, ok_bind,
        lineLength_ok herase (by omega)]
      exact ⟨_, rfl, hrelated _ herase⟩
    · have hlast : ed.text.length - 1 + 1 ≤ lineSize := by
        simp only [lineSize]
        omega
      have hnone : ed.text.length - 1 - (ed.cursor - 1) = 0 := by omega
      rw [hnone, memmove_zero] at herase
      rw [if_neg hmove, inLine_ok hlast]
      exact ⟨_, rfl, hrelated _ herase⟩

/-- The character is stored whether or not it fits; there is room for the terminator. -/
theorem Related.storeChar (h : Related shell ed) {ch : Byte} (hch : ch ≠ 0) :
    ∃ line, storeChar shell ch = .ok { shell with line } ∧
      Stores lineSize line (ed.text.insertIdx ed.cursor ch) := by
  have hcurpos := h.curpos
  have hcursor := h.cursor
  have hposition := h.position
  have hshort := h.short
  have hinsert := h.line.insert hcursor hch (by simp only [lineSize]; omega)
  have hlen : (ed.text.insertIdx ed.cursor ch).length = ed.text.length + 1 :=
    List.length_insertIdx_of_le_length hcursor _
  unfold ShellLine.storeChar
  simp only [hcurpos, hposition]
  by_cases hmove : ed.cursor < ed.text.length
  · have hcells : ed.cursor + 1 + (ed.text.length - ed.cursor) ≤ lineSize := by
      simp only [lineSize]
      omega
    rw [if_pos hmove, inLine_ok hcells, ok_bind]
    split
    · rw [lineLength_ok hinsert (by omega)]
      exact ⟨_, rfl, hinsert⟩
    · exact ⟨_, rfl, hinsert⟩
  · have hcells : ed.text.length + 1 ≤ lineSize := by
      simp only [lineSize]
      omega
    have heq : ed.cursor = ed.text.length := by omega
    rw [heq, Nat.sub_self, memmove_zero] at hinsert
    rw [if_neg hmove, inLine_ok hcells, heq]
    exact ⟨_, rfl, hinsert⟩

/-- A character that fits. -/
theorem Related.charKey (h : Related shell ed) {ch : Byte} (hch : ch ≠ 0)
    (hroom : ed.text.length + 1 < finshCmdSize) :
    ∃ shell', charKey shell ch = .ok shell' ∧ Related shell' (ed.key (.char ch)) := by
  obtain ⟨line, hstore, hline⟩ := h.storeChar hch
  have hposition := h.position
  have hshort := h.short
  have hlength := h.length_lt
  have hcursor := h.cursor
  have hlen : (ed.text.insertIdx ed.cursor ch).length = ed.text.length + 1 :=
    List.length_insertIdx_of_le_length hcursor _
  have hsmall : finshCmdSize < 2 ^ 16 := by decide
  have hpos : incr16 shell.linePosition = ed.text.length + 1 := by
    rw [incr16_eq (by omega), hposition]
  have hcur : incr16 shell.lineCurpos = ed.cursor + 1 := by
    rw [h.curpos, incr16_eq (by omega)]
  have hbefore : ¬finshCmdSize ≤ shell.linePosition := by omega
  have hafter : ¬finshCmdSize ≤ ed.text.length + 1 := by omega
  unfold ShellLine.charKey
  simp only [hbefore, if_false, hstore, ok_bind, hpos, hcur, hafter]
  refine ⟨_, rfl, ?_⟩
  simp only [Editor.key, Editor.insert, hlen, hafter, if_false]
  exact { h with
    line := hline
    short := by
      simp only
      omega
    position := hlen.symm
    curpos := rfl
    cursor := by
      simp only
      omega }

end Keys

/-! ## The history -/

section History

variable {cmdHistory : Nat → Nat → Byte} {i : Nat}

private theorem moveRows_succ (rows : Nat) :
    moveRows cmdHistory (rows + 1) = Function.update (moveRows cmdHistory rows) rows
      (memcpy (moveRows cmdHistory rows rows) (moveRows cmdHistory rows (rows + 1))
        finshCmdSize) := by
  rw [moveRows, List.range_succ, List.foldl_append]
  rfl

/-- The rows below `rows` are overwritten by the row behind them. -/
theorem moveRows_apply (rows : Nat) :
    moveRows cmdHistory rows i =
      if i < rows then memcpy (cmdHistory i) (cmdHistory (i + 1)) finshCmdSize
      else cmdHistory i := by
  induction rows generalizing i with
  | zero => rfl
  | succ rows ih =>
      rw [moveRows_succ, Function.update_apply]
      by_cases heq : i = rows
      · rw [if_pos heq, if_pos (by omega), ih, ih, if_neg (by omega), if_neg (by omega), heq]
      · rw [if_neg heq, ih]
        by_cases hlt : i < rows
        · rw [if_pos hlt, if_pos (by omega)]
        · rw [if_neg hlt, if_neg (by omega)]

private theorem storeRow_ok {row k : Nat} {src : Nat → Byte} (hrow : row < finshHistoryLines)
    (hk : k ≤ finshCmdSize) :
    storeRow cmdHistory row src k = .ok (Function.update cmdHistory row (memcpy zeros src k)) := by
  have hcheck : check .outOfBounds (decide (k ≤ finshCmdSize)) = .ok () :=
    check_eq_ok.mpr (decide_eq_true hk)
  rw [storeRow, inHistory_ok hrow, ok_bind, hcheck]
  rfl

end History

section Push

variable {shell : Shell} {ed : Editor}

/-- A row and the line are compared as their texts are. -/
theorem Related.same_iff (h : Related shell ed) {i : Nat} {text : List Byte}
    (hrow : ed.history[i]? = some text) :
    same finshCmdSize (shell.cmdHistory i) shell.line = true ↔ text = ed.text := by
  have hline : Stores finshCmdSize shell.line ed.text :=
    h.line.mono (Nat.le_succ _) h.short
  exact same_eq_true.trans ((h.rows i text hrow).eq_iff hline)

theorem Related.last_same_iff (h : Related shell ed) (hpos : 0 < ed.history.length) :
    same finshCmdSize (shell.cmdHistory (ed.history.length - 1)) shell.line = true ↔
      ed.history.getLast? = some ed.text := by
  have hlast : ed.history[ed.history.length - 1]? = some ed.history[ed.history.length - 1] :=
    List.getElem?_eq_getElem (by omega)
  rw [h.same_iff hlast, List.getLast?_eq_getElem?, hlast, Option.some.injEq]

/-- The line as a row of its own. -/
theorem Related.row (h : Related shell ed) :
    Stores finshCmdSize (memcpy zeros shell.line shell.linePosition) ed.text := by
  rw [h.position]
  exact h.line.memcpy le_rfl h.line.fits.le h.short fun _ _ _ => rfl

/-- The rows after they have moved up and the line has become the last. -/
theorem Related.rows_moved (h : Related shell ed) (hlen : ed.history.length = finshHistoryLines)
    (i : Nat) (text : List Byte) (hi : (ed.history.tail ++ [ed.text])[i]? = some text) :
    Stores finshCmdSize (Function.update (moveRows shell.cmdHistory (finshHistoryLines - 1))
      (finshHistoryLines - 1) (memcpy zeros shell.line shell.linePosition) i) text := by
  have htail : ed.history.tail.length = finshHistoryLines - 1 := by
    rw [List.length_tail, hlen]
  rw [Function.update_apply]
  by_cases hlast : i = finshHistoryLines - 1
  · rw [List.getElem?_append_right (by omega), htail, hlast, Nat.sub_self] at hi
    cases hi
    rw [if_pos hlast]
    exact h.row
  · have hlt : i < finshHistoryLines - 1 := by
      have hbound := (List.getElem?_eq_some_iff.mp hi).1
      rw [List.length_append, htail, List.length_singleton] at hbound
      omega
    rw [List.getElem?_append_left (by omega), List.getElem?_tail] at hi
    have hrow := h.rows (i + 1) text hi
    rw [if_neg hlast, moveRows_apply, if_pos hlt]
    exact hrow.memcpy hrow.fits.le le_rfl hrow.fits fun j hj hjn => absurd hjn (by omega)

/-- The rows after the line has become another one. -/
theorem Related.rows_added (h : Related shell ed) (i : Nat) (text : List Byte)
    (hi : (ed.history ++ [ed.text])[i]? = some text) :
    Stores finshCmdSize (Function.update shell.cmdHistory shell.historyCount
      (memcpy zeros shell.line shell.linePosition) i) text := by
  rw [Function.update_apply, h.count]
  by_cases hlast : i = ed.history.length
  · rw [List.getElem?_append_right (by omega), hlast, Nat.sub_self] at hi
    cases hi
    rw [if_pos hlast]
    exact h.row
  · have hlt : i < ed.history.length := by
      have hbound := (List.getElem?_eq_some_iff.mp hi).1
      rw [List.length_append, List.length_singleton] at hbound
      omega
    rw [List.getElem?_append_left hlt] at hi
    rw [if_neg hlast]
    exact h.rows i text hi

/-- What `shell_push_history` leaves of the shell. -/
theorem Related.push (h : Related shell ed) :
    ∃ cmdHistory,
      shellPushHistory shell = .ok { shell with
        cmdHistory, historyCount := ed.push.length, currentHistory := ed.push.length } ∧
      ed.push.length ≤ finshHistoryLines ∧
      ∀ i text, ed.push[i]? = some text → Stores finshCmdSize (cmdHistory i) text := by
  have hcount := h.count
  have hlines := h.lines
  have hkept : ed.push = ed.history → ∃ cmdHistory,
      (Except.ok { shell with currentHistory := shell.historyCount } : Except Fault Shell) =
        .ok { shell with
          cmdHistory, historyCount := ed.push.length, currentHistory := ed.push.length } ∧
      ed.push.length ≤ finshHistoryLines ∧
      ∀ i text, ed.push[i]? = some text → Stores finshCmdSize (cmdHistory i) text := by
    intro hpush
    rw [hpush, ← hcount]
    exact ⟨shell.cmdHistory, rfl, hcount ▸ hlines, h.rows⟩
  simp only [shellPushHistory]
  by_cases hempty : ed.text = []
  · have hzero : ¬shell.linePosition ≠ 0 := by rw [h.position, hempty]; simp
    rw [if_neg hzero, pure_bind]
    exact hkept (if_pos (Or.inl hempty))
  have hnonzero : shell.linePosition ≠ 0 := by
    rw [h.position]
    exact fun hlen => hempty (List.length_eq_zero_iff.mp hlen)
  have hk : shell.linePosition ≤ finshCmdSize := by rw [h.position]; exact h.short.le
  rw [if_pos hnonzero]
  by_cases hfull : finshHistoryLines ≤ shell.historyCount
  · rw [if_pos hfull]
    have hlen : ed.history.length = finshHistoryLines := by omega
    have hsame := h.last_same_iff (by rw [hlen]; decide)
    rw [hlen] at hsame
    cases hcmp : same finshCmdSize (shell.cmdHistory (finshHistoryLines - 1)) shell.line with
    | true =>
        simp only [Bool.not_true, Bool.false_eq_true, if_false, pure_bind]
        exact hkept (if_pos (Or.inr (hsame.mp hcmp)))
    | false =>
        have hnew : ¬(ed.text = [] ∨ ed.history.getLast? = some ed.text) := by
          rintro (hnil | hlast)
          · exact hempty hnil
          · rw [hsame.mpr hlast] at hcmp
            cases hcmp
        have hpush : ed.push = ed.history.tail ++ [ed.text] := by
          rw [Editor.push, if_neg hnew, if_pos hlen.ge]
        have hpushLen : ed.push.length = finshHistoryLines := by
          rw [hpush, List.length_append, List.length_tail, hlen]
          rfl
        have hlastRow : finshHistoryLines - 1 < finshHistoryLines := by decide
        simp only [Bool.not_false, if_true, storeRow_ok hlastRow hk, ok_bind, pure_bind]
        rw [hpushLen]
        refine ⟨_, rfl, le_rfl, fun i text hi => ?_⟩
        rw [hpush] at hi
        exact h.rows_moved hlen i text hi
  · rw [if_neg hfull]
    by_cases hdiffers : shell.historyCount = 0 ∨
        (!same finshCmdSize (shell.cmdHistory (shell.historyCount - 1)) shell.line) = true
    · have hnew : ¬(ed.text = [] ∨ ed.history.getLast? = some ed.text) := by
        rintro (hnil | hlast)
        · exact hempty hnil
        · rcases hdiffers with hzero | hdiffers
          · have hnil : ed.history = [] := List.length_eq_zero_iff.mp (by omega)
            rw [hnil] at hlast
            cases hlast
          · have hpos : 0 < ed.history.length := by
              refine List.length_pos_iff.mpr fun hnil => ?_
              rw [hnil] at hlast
              cases hlast
            rw [hcount, (h.last_same_iff hpos).mpr hlast] at hdiffers
            cases hdiffers
      have hpush : ed.push = ed.history ++ [ed.text] := by
        rw [Editor.push, if_neg hnew, if_neg (by omega)]
      have hpushLen : ed.push.length = shell.historyCount + 1 := by
        rw [hpush, List.length_append, hcount]
        rfl
      have hsmall : finshHistoryLines < 2 ^ 16 := by decide
      rw [if_pos hdiffers, storeRow_ok (by omega) hk, ok_bind, pure_bind,
        incr16_eq (by omega), hpushLen]
      refine ⟨_, rfl, by omega, fun i text hi => ?_⟩
      rw [hpush] at hi
      exact h.rows_added i text hi
    · rw [if_neg hdiffers, pure_bind]
      have hpos : 0 < ed.history.length := by
        have hnonzero := fun hzero => hdiffers (Or.inl hzero)
        omega
      have hcmp : same finshCmdSize (shell.cmdHistory (ed.history.length - 1)) shell.line =
          true := by
        have hnot := fun hne => hdiffers (Or.inr hne)
        rw [hcount, Bool.not_eq_true', imp_false, Bool.not_eq_false] at hnot
        exact hnot
      exact hkept (if_pos (Or.inr ((h.last_same_iff hpos).mp hcmp)))

/-- At the end of a line the command is executed and the line cleared. -/
theorem Related.lineEndKey (h : Related shell ed) :
    ∃ shell', lineEndKey shell = .ok shell' ∧ Related shell' (ed.key .lineEnd) := by
  obtain ⟨cmdHistory, hpush, hlines, hrows⟩ := h.push
  have hlength : lineLength { shell with
      cmdHistory, historyCount := ed.push.length, currentHistory := ed.push.length } 0 =
      .ok ed.text.length :=
    lineLength_ok h.line (Nat.zero_le _)
  simp only [ShellLine.lineEndKey, hpush, ok_bind, hlength, h.line.map_range]
  refine ⟨_, rfl, ?_⟩
  simp only [Editor.key]
  exact
    { stat := h.stat
      line := stores_zeros (Nat.succ_pos _)
      short := Nat.succ_pos _
      position := rfl
      curpos := rfl
      cursor := le_rfl
      count := rfl
      lines := hlines
      rows := hrows
      current := rfl
      recalled := le_rfl
      executed := by
        simp only
        rw [h.executed, h.position] }

/-- The character with which the line is full. -/
theorem Related.charKey_full (h : Related shell ed) {ch : Byte} (hch : ch ≠ 0)
    (hfull : finshCmdSize ≤ ed.text.length + 1) {shell' : Shell}
    (hok : ShellLine.charKey shell ch = .ok shell') :
    shell'.linePosition = 0 ∧ shell'.line 0 ≠ 0 := by
  obtain ⟨line, hstore, hline⟩ := h.storeChar hch
  have hposition := h.position
  have hlength := h.length_lt
  have hshort := h.short
  have hsmall : finshCmdSize < 2 ^ 16 := by decide
  have hpos : incr16 shell.linePosition = ed.text.length + 1 := by
    rw [incr16_eq (by omega), hposition]
  have hbefore : ¬finshCmdSize ≤ shell.linePosition := by omega
  unfold ShellLine.charKey at hok
  simp only [hbefore, if_false, hstore, ok_bind, hpos, hfull, if_true] at hok
  rw [← pure_eq_ok.mp hok]
  refine ⟨rfl, hline.ne_zero ?_⟩
  rw [List.length_insertIdx_of_le_length h.cursor]
  exact Nat.succ_pos _

end Push

/-! ## Bytes -/

private theorem plainKey_char {ch c : Byte} (h : plainKey ch = .char c) : c ≠ 0 := by
  unfold plainKey at h
  split at h
  · cases h
  · rename_i hnot
    split at h
    · cases h
    · split at h
      · cases h
      · split at h
        · cases h
        · cases h
          exact fun hzero => hnot (Or.inl hzero)

private theorem plainKey_tab {ch : Byte} (h : plainKey ch = .tab) : ch = 0x09 := by
  unfold plainKey at h
  split at h
  · cases h
  · split at h
    · assumption
    · split at h
      · cases h
      · split at h <;> cases h

/-- A byte stands for itself or is part of a control sequence. -/
theorem decode_cases (stat : InputStat) (ch : Byte) :
    (decode stat ch).2 = plainKey ch ∨
      (decode stat ch).2 ∈ [Key.none, .up, .down, .left, .right] := by
  unfold decode
  split
  · simp
  · cases stat with
    | waitNormal => simp
    | waitSpecKey =>
        simp only
        split <;> simp
    | waitFuncKey =>
        simp only
        split
        · simp
        · split
          · simp
          · split
            · simp
            · split <;> simp

private theorem decode_char {stat : InputStat} {ch c : Byte} (h : (decode stat ch).2 = .char c) :
    c ≠ 0 := by
  rcases decode_cases stat ch with hplain | hcontrol
  · exact plainKey_char (hplain.symm.trans h)
  · rw [h] at hcontrol
    simp at hcontrol

private theorem decode_tab {stat : InputStat} {ch : Byte} (h : (decode stat ch).2 = .tab) :
    ch = 0x09 := by
  rcases decode_cases stat ch with hplain | hcontrol
  · exact plainKey_tab (hplain.symm.trans h)
  · rw [h] at hcontrol
    simp at hcontrol

/-! ## Sequences of bytes -/

section Steps

variable {mshAutoComplete : (Nat → Byte) → Nat → Byte} {s : Session} {ch : Option Byte}

theorem Related.faithful (h : Related s.shell s.editor) : Faithful s where
  cursor := by
    rw [h.curpos, h.position]
    exact h.cursor
  position := by
    rw [h.position]
    exact h.short
  current := by
    rw [h.current, h.count]
    exact h.recalled
  count := by
    rw [h.count]
    exact h.lines
  zero := fun i hi hn => h.line.zero (h.position ▸ hi) hn
  executed := h.executed

private theorem related_initial : Related Shell.initial Editor.initial where
  stat := rfl
  line := stores_zeros (Nat.succ_pos _)
  short := Nat.succ_pos _
  position := rfl
  curpos := rfl
  cursor := le_rfl
  count := rfl
  lines := Nat.zero_le _
  rows := fun _ _ h => by cases h
  current := rfl
  recalled := le_rfl
  executed := rfl

theorem Related.withStat {shell : Shell} {ed : Editor} (h : Related shell ed)
    (stat : InputStat) : Related { shell with stat } { ed with stat } :=
  { h with stat := rfl }

/-- A key that is not completed and fits. -/
theorem Related.handleKey {shell : Shell} {ed : Editor} (h : Related shell ed) {key : Key}
    (htab : key ≠ .tab)
    (hfits : ∀ c, key = .char c → c ≠ 0 ∧ ed.text.length + 1 < finshCmdSize) :
    ∃ shell', handleKey mshAutoComplete shell key = .ok shell' ∧ Related shell' (ed.key key) := by
  cases key with
  | none => exact ⟨shell, rfl, h⟩
  | up => exact h.upKey
  | down => exact h.downKey
  | left => exact ⟨_, rfl, h.leftKey⟩
  | right => exact h.rightKey
  | tab => exact absurd rfl htab
  | backspace => exact h.backspaceKey
  | lineEnd => exact h.lineEndKey
  | char c => exact h.charKey (hfits c rfl).1 (hfits c rfl).2

private theorem related_step (h : Related s.shell s.editor) (htab : ch ≠ some 0x09)
    (hfits : Fits s ch) :
    ∃ s', step mshAutoComplete s ch = .ok s' ∧ Faithful s' ∧ Related s'.shell s'.editor := by
  cases ch with
  | none => exact ⟨⟨s.shell, s.editor⟩, rfl, h.faithful, h⟩
  | some ch =>
      have hnotTab : (decode s.shell.stat ch).2 ≠ .tab := fun heq =>
        htab (congrArg some (decode_tab heq))
      have hchar : ∀ c, (decode s.shell.stat ch).2 = .char c →
          c ≠ 0 ∧ s.editor.text.length + 1 < finshCmdSize := fun c hc =>
        ⟨decode_char hc, h.position ▸ hfits c hc⟩
      obtain ⟨shell', hok, hrelated⟩ :=
        (h.withStat (decode s.shell.stat ch).1).handleKey hnotTab hchar
      rw [h.stat] at hok hrelated
      refine ⟨⟨shell', s.editor.byte (some ch)⟩, ?_, ?_⟩
      · simp only [step, handleByte]
        rw [h.stat, hok]
        rfl
      · have hpair : Related shell' (s.editor.byte (some ch)) := hrelated
        exact ⟨Related.faithful (s := ⟨shell', _⟩) hpair, hpair⟩

/-- If the line fills up it is not zero behind `line_position`. -/
theorem fits_of_step {s' : Session} (h : Related s.shell s.editor)
    (hok : step mshAutoComplete s ch = .ok s') (hfaithful : Faithful s') : Fits s ch := by
  cases ch with
  | none => trivial
  | some ch =>
      intro c hc
      by_contra hfull
      simp only [step, bind_eq_ok, handleByte] at hok
      obtain ⟨shell', hbyte, hok⟩ := hok
      cases hok
      rw [hc] at hbyte
      have hover : finshCmdSize ≤ s.editor.text.length + 1 := by
        rw [← h.position]
        omega
      have hfilled := (h.withStat (decode s.shell.stat ch).1).charKey_full (decode_char hc) hover
        hbyte
      exact hfilled.2 (hfaithful.zero 0 hfilled.1.le (Nat.succ_pos _))

end Steps

/-- For every sequence of bytes but the one that asks for completion: the shell edits as the
editor does, within its arrays, exactly if the line never fills up. -/
theorem shell_line_iff (mshAutoComplete : (Nat → Byte) → Nat → Byte) (es : List (Option Byte))
    (hkeys : ∀ ch ∈ es, ch ≠ some 0x09) :
    ((∃ s, run (step mshAutoComplete) Session.initial es = .ok s) ∧
        Always (step mshAutoComplete) Faithful Session.initial es) ↔
      Guarded (step mshAutoComplete) Fits Session.initial es := by
  have hguard : Guarded (step mshAutoComplete) (fun _ ch => ch ≠ some 0x09) Session.initial es :=
    Guarded.of_forall fun ch hch _ => hkeys ch hch
  have hstart : Related Session.initial.shell Session.initial.editor := related_initial
  have hgood : ∀ s ch, Related s.shell s.editor → Faithful s → ch ≠ some 0x09 → Fits s ch →
      ∃ s', step mshAutoComplete s ch = .ok s' ∧ Faithful s' ∧ Related s'.shell s'.editor :=
    fun s ch h _ htab hfits => related_step h htab hfits
  have hneed : ∀ s ch s', Related s.shell s.editor → Faithful s → ch ≠ some 0x09 →
      step mshAutoComplete s ch = .ok s' → Faithful s' → Fits s ch :=
    fun s ch s' h _ _ hok hfaithful => fits_of_step h hok hfaithful
  exact returns_iff_guarded hgood hneed hstart hstart.faithful hguard

/-- `lxs` with the `x` taken back and a `p` put in front of the `s`, executed, recalled, and
executed again without its last character. -/
def editedLine : List (Option Byte) :=
  [some 0x6c, some 0x78, some 0x08, some 0x73, some 0x1b, some 0x5b, some 0x44, some 0x70,
    some 0x1b, some 0x5b, some 0x43, some 0x0d, none, some 0x1b, some 0x5b, some 0x41, some 0x7f,
    some 0x0d]

/-- The shell executes `lps` and then `lp`. -/
theorem shell_line_iff_edited :
    Always (step id) Faithful Session.initial editedLine ∧
      (run (step id) Session.initial editedLine).map (fun s => s.shell.executed) =
        .ok [⟨[0x6c, 0x70, 0x73], 3⟩, ⟨[0x6c, 0x70], 2⟩] :=
  ⟨((shell_line_iff id editedLine (by decide +kernel)).mpr (by decide +kernel)).2,
    by decide +kernel⟩

/-- `FINSH_CMD_SIZE` characters, and a line after them. -/
def longLine : List (Option Byte) :=
  List.replicate finshCmdSize (some 0x61) ++ [some 0x6c, some 0x73, some 0x0d]

/-- The command that is executed has the rest of the long line behind it. -/
theorem long_line_stays :
    ¬∀ (mshAutoComplete : (Nat → Byte) → Nat → Byte) (es : List (Option Byte)),
      (∀ ch ∈ es, ch ≠ some 0x09) →
        (∃ s, run (step mshAutoComplete) Session.initial es = .ok s) ∧
          Always (step mshAutoComplete) Faithful Session.initial es := by
  intro hall
  obtain ⟨⟨s, hrun⟩, halways⟩ := hall id longLine (by decide +kernel)
  have hsame := (halways.of_run hrun).executed
  have hdiffer : (run (step id) Session.initial longLine).toOption.map
      (fun s => decide (s.shell.executed = s.editor.executed)) = some false := by
    decide +kernel
  rw [hrun] at hdiffer
  simp [Except.toOption, hsame] at hdiffer

end RtHypervisor.Ports.ShellLine
