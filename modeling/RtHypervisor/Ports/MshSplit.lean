import Mathlib.Data.BitVec
import Mathlib.Data.List.Forall2

/-!
# Splitting a command line into arguments

`msh_split` of `msh.c`.  The buffer is the list of its `length + 1` bytes, and a byte outside it is
neither read nor written: such an access is `none`, as is a loop that has not ended when its fuel is
used up.  `ptr` is `cmd + position` throughout, so that the two are one variable.
-/

namespace RtHypervisor.Ports.MshSplit

abbrev Byte := BitVec 8

abbrev finshArgMax : Nat := 10

def space : Byte := 0x20
def tab : Byte := 0x09
def quote : Byte := 0x22
def backslash : Byte := 0x5C

/-- `c == ' ' || c == '\t'`. -/
def isBlank (c : Byte) : Bool := c == space || c == tab

/-- `*(cmd + p) = c`. -/
def write (mem : List Byte) (p : Nat) (c : Byte) : Option (List Byte) :=
  if p < mem.length then some (mem.set p c) else none

/-- What goes to the console: a format without arguments, or the argument of a `%s `. -/
inductive Print where
  | text (s : String)
  | arg (bytes : List Byte)
  deriving DecidableEq, Repr

structure Split where
  mem : List Byte
  position : Nat
  argv : List Nat
  console : List Print
  deriving DecidableEq, Repr

/-- The bytes of `%s`, which end in the buffer. -/
def untilNul : List Byte → Option (List Byte)
  | [] => none
  | c :: rest => if c = 0 then some [] else (untilNul rest).map (c :: ·)

/-- `strip bank and tab` -/
def stripBlank : Nat → List Byte → Nat → Nat → Option (List Byte × Nat)
  | 0, _, _, _ => none
  | fuel + 1, mem, length, position => do
      let c ← mem[position]?
      if isBlank c ∧ position < length then
        let mem ← write mem position 0
        stripBlank fuel mem length (position + 1)
      else some (mem, position)

/-- `skip this string` -/
def skipString : Nat → List Byte → Nat → Nat → Option Nat
  | 0, _, _, _ => none
  | fuel + 1, mem, length, position => do
      let c ← mem[position]?
      if c ≠ quote ∧ position < length then
        if c = backslash then
          let next ← mem[position + 1]?
          if next = quote then skipString fuel mem length (position + 2)
          else skipString fuel mem length (position + 1)
        else skipString fuel mem length (position + 1)
      else some position

/-- The loop over a token that is not a string. -/
def skipWord : Nat → List Byte → Nat → Nat → Option Nat
  | 0, _, _, _ => none
  | fuel + 1, mem, length, position => do
      let c ← mem[position]?
      if (!isBlank c) ∧ position < length then skipWord fuel mem length (position + 1)
      else some position

/-- `argv[argc] = ptr; argc ++`, in an array of `FINSH_ARG_MAX` places. -/
def pushArg (argv : List Nat) (p : Nat) : Option (List Nat) :=
  if argv.length < finshArgMax then some (argv ++ [p]) else none

/-- The complaint about the arguments that are left over. -/
def tooManyArgs (s : Split) : Option Split := do
  let args ← s.argv.mapM fun p => untilNul (s.mem.drop p)
  let lines := Print.text "Too many args ! We only Use:\n" :: args.map Print.arg
  some { s with console := s.console ++ lines ++ [Print.text "\n"] }

/-- One pass of the outer loop, and whether it leaves the loop by a `break`. -/
def splitPass (fuel length : Nat) (s : Split) : Option (Split × Bool) := do
  let (mem, position) ← stripBlank fuel s.mem length s.position
  let s := { s with mem := mem, position := position }
  if finshArgMax ≤ s.argv.length then
    let s ← tooManyArgs s
    some (s, true)
  else if length ≤ position then some (s, true)
  else
    let c ← mem[position]?
    if c = quote then
      let argv ← pushArg s.argv (position + 1)
      let stop ← skipString fuel mem length (position + 1)
      if length ≤ stop then some ({ s with argv := argv, position := stop }, true)
      else
        let mem ← write mem stop 0
        some ({ s with mem := mem, argv := argv, position := stop + 1 }, false)
    else
      let argv ← pushArg s.argv position
      let stop ← skipWord fuel mem length position
      some ({ s with argv := argv, position := stop }, decide (length ≤ stop))

/-- The outer loop. -/
def splitLoop : Nat → Nat → Split → Option Split
  | 0, _, _ => none
  | fuel + 1, length, s =>
      if s.position < length then do
        let (s, stop) ← splitPass (fuel + 1) length s
        if stop then some s else splitLoop fuel length s
      else some s

/-- `msh_split`; the length of `argv` is the value that is returned. -/
def mshSplit (fuel : Nat) (cmd : List Byte) (length : Nat) : Option Split :=
  splitLoop fuel length { mem := cmd, position := 0, argv := [], console := [] }

/-! ## Tokens -/

/-- What stands before the next double quote that has no backslash before it. -/
def quoted : Bool → List Byte → List Byte
  | _, [] => []
  | escaped, c :: rest =>
      if c = quote ∧ escaped = false then [] else c :: quoted (c == backslash) rest

/-- What stands before the next blank. -/
def word (text : List Byte) : List Byte := text.takeWhile fun c => !isBlank c

/-- The tokens of a text. -/
def tokens : List Byte → List (List Byte)
  | [] => []
  | c :: rest =>
      if isBlank c then tokens rest
      else if c = quote then
        quoted false rest :: tokens (rest.drop ((quoted false rest).length + 1))
      else (c :: word rest) :: tokens (rest.drop (word rest).length)
termination_by text => text.length
decreasing_by
  all_goals
    simp only [List.length_drop, List.length_cons]
    omega

/-- The bytes of `token` are at `p`, and behind them there is a NUL. -/
structure Holds (mem : List Byte) (p : Nat) (token : List Byte) : Prop where
  bytes : ∀ i, i < token.length → mem[p + i]? = token[i]?
  ends : mem[p + token.length]? = some 0

section Loops

variable {mem mem' text : List Byte} {fuel pos p : Nat}

/-- Behind `pos` the buffer is as it was given. -/
def Ahead (text mem : List Byte) (pos : Nat) : Prop :=
  ∀ p, pos ≤ p → mem[p]? = (text ++ [0])[p]?

theorem Ahead.mono (h : Ahead text mem pos) (hp : pos ≤ p) : Ahead text mem p :=
  fun q hq => h q (hp.trans hq)

theorem Ahead.get (h : Ahead text mem pos) (hpos : pos < text.length) :
    mem[pos]? = some text[pos] := by
  rw [h pos le_rfl, List.getElem?_append_left hpos, List.getElem?_eq_getElem hpos]

theorem Ahead.nul (h : Ahead text mem pos) (hpos : pos ≤ text.length) :
    mem[text.length]? = some 0 := by
  rw [h _ hpos, List.getElem?_concat_length]

/-! ### The inner loops -/

private theorem quoted_of_ne_quote {c : Byte} {rest : List Byte} {escaped : Bool} (hc : c ≠ quote) :
    quoted escaped (c :: rest) = c :: quoted (c == backslash) rest :=
  if_neg fun h => hc h.1

private theorem word_cons_of_blank {c : Byte} {rest : List Byte} (hc : isBlank c = true) :
    word (c :: rest) = [] := by
  simp [word, hc]

private theorem word_cons {c : Byte} {rest : List Byte} (hc : isBlank c = false) :
    word (c :: rest) = c :: word rest := by
  simp [word, hc]

/-- The word ends at a blank, or with the text. -/
theorem word_ends (text : List Byte) (h : (word text).length < text.length) :
    isBlank (text.get ⟨(word text).length, h⟩) = true := by
  induction text with
  | nil => exact absurd h (Nat.not_lt_zero _)
  | cons c rest ih =>
      cases hc : isBlank c with
      | true => simpa [word_cons_of_blank hc] using hc
      | false =>
          simp only [List.get_eq_getElem, word_cons hc, List.length_cons,
            List.getElem_cons_succ] at h ih ⊢
          exact ih (by omega)

/-- The loop over a string stops at the quote that ends it.  A backslash takes the quote behind it
along, so that the loop never stands at a character that is escaped. -/
theorem skipString_eq (h : Ahead text mem pos) (hpos : pos ≤ text.length)
    (hfuel : text.length - pos < fuel) :
    skipString fuel mem text.length pos = some (pos + (quoted false (text.drop pos)).length) := by
  induction fuel generalizing pos with
  | zero => omega
  | succ fuel ih =>
      unfold skipString
      rcases Nat.lt_or_eq_of_le hpos with hlt | rfl
      · have hnext : Ahead text mem (pos + 1) := h.mono (Nat.le_succ pos)
        rw [h.get hlt, List.drop_eq_getElem_cons hlt, Option.bind_eq_bind, Option.bind_some]
        by_cases hquote : text[pos] = quote
        · rw [if_neg (fun hgo => hgo.1 hquote), hquote]
          rfl
        · rw [if_pos ⟨hquote, hlt⟩, quoted_of_ne_quote hquote, List.length_cons]
          by_cases hslash : text[pos] = backslash
          · rw [if_pos hslash, hslash]
            have hone : skipString fuel mem text.length (pos + 1) =
                some (pos + 1 + (quoted false (text.drop (pos + 1))).length) :=
              ih hnext hlt (by omega)
            rcases Nat.lt_or_eq_of_le hlt with hlt' | hend
            · rw [hnext.get hlt', Option.bind_some, List.drop_eq_getElem_cons hlt']
              by_cases hquote' : text[pos + 1] = quote
              · have htwo : skipString fuel mem text.length (pos + 2) =
                    some (pos + 2 + (quoted false (text.drop (pos + 1 + 1))).length) :=
                  ih (h.mono (Nat.le_add_right pos 2)) hlt' (by omega)
                have hescaped : quoted (backslash == backslash) (quote :: text.drop (pos + 1 + 1)) =
                    quote :: quoted false (text.drop (pos + 1 + 1)) := rfl
                rw [if_pos hquote', hquote', htwo, hescaped, List.length_cons]
                congr 1
                omega
              · rw [if_neg hquote', hone, List.drop_eq_getElem_cons hlt',
                  quoted_of_ne_quote hquote', quoted_of_ne_quote hquote']
                congr 1
                omega
            · have hnul : mem[pos + 1]? = some 0 := by
                have hnul := h.nul hpos
                rwa [← hend] at hnul
              have hne : ¬(0 : Byte) = quote := by decide
              rw [hnul, Option.bind_some, if_neg hne, hone, List.drop_of_length_le (by omega)]
              rfl
          · have hplain : (text[pos] == backslash) = false := by simpa using hslash
            rw [if_neg hslash, hplain, ih hnext hlt (by omega)]
            congr 1
            omega
      · rw [h.nul le_rfl, Option.bind_eq_bind, Option.bind_some,
          if_neg (fun hgo => absurd hgo.2 (Nat.lt_irrefl _)), List.drop_length]
        rfl

private theorem skipWord_eq (h : Ahead text mem pos) (hpos : pos ≤ text.length)
    (hfuel : text.length - pos < fuel) :
    skipWord fuel mem text.length pos = some (pos + (word (text.drop pos)).length) := by
  induction fuel generalizing pos with
  | zero => omega
  | succ fuel ih =>
      unfold skipWord
      rcases Nat.lt_or_eq_of_le hpos with hlt | rfl
      · rw [h.get hlt, List.drop_eq_getElem_cons hlt, Option.bind_eq_bind, Option.bind_some]
        cases hblank : isBlank text[pos] with
        | true =>
            rw [if_neg (fun hgo => absurd hgo.1 (by decide)), word_cons_of_blank hblank]
            rfl
        | false =>
            have hnext : Ahead text mem (pos + 1) := h.mono (Nat.le_succ pos)
            rw [if_pos ⟨rfl, hlt⟩, ih hnext hlt (by omega), word_cons hblank, List.length_cons]
            congr 1
            omega
      · rw [h.nul le_rfl, Option.bind_eq_bind, Option.bind_some,
          if_neg (fun hgo => absurd hgo.2 (Nat.lt_irrefl _)), List.drop_length]
        rfl

/-- Blanks from `pos` up to `stop` have become zeros, and no token has been passed. -/
structure Stripped (text mem mem' : List Byte) (pos stop : Nat) : Prop where
  size : mem'.length = mem.length
  le : pos ≤ stop
  stop_le : stop ≤ text.length
  before : ∀ p, p < pos → mem'[p]? = mem[p]?
  zeros : ∀ p, pos ≤ p → p < stop → mem'[p]? = some 0
  ahead : Ahead text mem' stop
  tokens_eq : tokens (text.drop pos) = tokens (text.drop stop)
  stops : ∀ hlt : stop < text.length, isBlank text[stop] = false

private theorem stripBlank_spec (h : Ahead text mem pos) (hsize : mem.length = text.length + 1)
    (hpos : pos ≤ text.length) (hfuel : text.length - pos < fuel) :
    ∃ mem' stop, stripBlank fuel mem text.length pos = some (mem', stop) ∧
      Stripped text mem mem' pos stop := by
  induction fuel generalizing pos mem with
  | zero => omega
  | succ fuel ih =>
      unfold stripBlank
      by_cases hgo : ∃ hlt : pos < text.length, isBlank text[pos] = true
      · obtain ⟨hlt, hblank⟩ := hgo
        have hset : Ahead text (mem.set pos 0) (pos + 1) := by
          intro p hp
          rw [List.getElem?_set_ne (by omega)]
          exact h p (by omega)
        obtain ⟨mem', stop, heq, hs⟩ := ih hset (by rwa [List.length_set]) hlt (by omega)
        refine ⟨mem', stop, ?_, ?_⟩
        · rw [h.get hlt, Option.bind_eq_bind, Option.bind_some, if_pos ⟨hblank, hlt⟩, write,
            if_pos (by omega)]
          exact heq
        · have hle := hs.le
          refine ⟨?_, by omega, hs.stop_le, ?_, ?_, hs.ahead, ?_, hs.stops⟩
          · rw [hs.size, List.length_set]
          · intro p hp
            rw [hs.before p (by omega), List.getElem?_set_ne (by omega)]
          · intro p hp hp'
            rcases Nat.lt_or_eq_of_le hp with hlt' | rfl
            · exact hs.zeros p hlt' hp'
            · rw [hs.before pos (Nat.lt_succ_self pos), List.getElem?_set_self (by omega)]
          · rw [List.drop_eq_getElem_cons hlt, tokens, if_pos hblank]
            exact hs.tokens_eq
      · refine ⟨mem, pos, ?_, rfl, le_rfl, hpos, fun _ _ => rfl, ?_, h, rfl, ?_⟩
        · rcases Nat.lt_or_eq_of_le hpos with hlt | rfl
          · rw [h.get hlt, Option.bind_eq_bind, Option.bind_some, if_neg]
            intro hblank
            exact hgo ⟨hlt, hblank.1⟩
          · rw [h.nul le_rfl, Option.bind_eq_bind, Option.bind_some,
              if_neg (fun hgo => absurd hgo.2 (Nat.lt_irrefl _))]
        · intro p hp hp'
          omega
        · intro hlt
          rw [← Bool.not_eq_true]
          exact fun hblank => hgo ⟨hlt, hblank⟩

/-! ### One pass of the outer loop -/

/-- A token that has been found.  The blank behind it is overwritten by the next pass. -/
structure Pending (text mem : List Byte) (position p : Nat) (token : List Byte) : Prop where
  bytes : ∀ i, i < token.length → mem[p + i]? = token[i]?
  le : p + token.length ≤ position
  ends : mem[p + token.length]? = some 0 ∧ p + token.length < position ∨
    p + token.length = position ∧ ∀ hlt : position < text.length, isBlank text[position] = true

/-- The loop stands at `position`, behind the tokens `done`. -/
structure Scanned (text : List Byte) (s : Split) (done : List (List Byte)) : Prop where
  size : s.mem.length = text.length + 1
  le : s.position ≤ text.length
  ahead : Ahead text s.mem s.position
  tokens_eq : tokens text = done ++ tokens (text.drop s.position)
  args : List.Forall₂ (Pending text s.mem s.position) s.argv done
  few : s.argv.length ≤ finshArgMax

/-- What the function leaves. -/
structure Finished (text : List Byte) (s : Split) : Prop where
  size : s.mem.length = text.length + 1
  args : List.Forall₂ (Holds s.mem) s.argv ((tokens text).take finshArgMax)
  few : s.argv.length ≤ finshArgMax

/-- After the blanks are stripped every token has its NUL. -/
theorem Stripped.holds {stop : Nat} {token : List Byte} (h : Stripped text mem mem' pos stop)
    (hp : Pending text mem pos p token) :
    Holds mem' p token ∧ p + token.length ≤ stop := by
  have hle := hp.le
  have hstop := h.le
  refine ⟨⟨?_, ?_⟩, by omega⟩
  · intro i hi
    rw [h.before _ (by omega)]
    exact hp.bytes i hi
  · rcases hp.ends with ⟨hnul, hlt⟩ | ⟨heq, hblank⟩
    · rw [h.before _ hlt]
      exact hnul
    · rw [heq]
      rcases Nat.lt_or_eq_of_le hstop with hlt | rfl
      · exact h.zeros pos le_rfl hlt
      · rcases Nat.lt_or_eq_of_le h.stop_le with hlt | rfl
        · exact absurd (hblank hlt) (by rw [h.stops hlt]; decide)
        · exact h.ahead.nul le_rfl

/-- A token that is read in front of the loop. -/
theorem Ahead.bytes {token : List Byte} (h : Ahead text mem p) (ht : token <+: text.drop p) :
    ∀ i, i < token.length → mem[p + i]? = token[i]? := by
  intro i hi
  have hlen := ht.length_le
  rw [List.length_drop] at hlen
  rw [h _ (by omega), List.getElem?_append_left (by omega), ← List.getElem?_drop]
  exact (List.prefix_iff_getElem?.mp ht i hi).trans (List.getElem?_eq_getElem hi).symm

private theorem quoted_prefix (escaped : Bool) (text : List Byte) :
    quoted escaped text <+: text := by
  induction text generalizing escaped with
  | nil => exact List.prefix_rfl
  | cons c rest ih =>
      unfold quoted
      split
      · exact List.nil_prefix
      · exact List.cons_prefix_cons.mpr ⟨rfl, ih _⟩

private theorem exists_untilNul {bytes : List Byte} (h : 0 ∈ bytes) :
    ∃ read, untilNul bytes = some read := by
  induction bytes with
  | nil => exact absurd h List.not_mem_nil
  | cons c rest ih =>
      unfold untilNul
      by_cases hc : c = 0
      · exact ⟨[], if_pos hc⟩
      · obtain ⟨read, hread⟩ := ih (List.mem_of_ne_of_mem (Ne.symm hc) h)
        refine ⟨c :: read, ?_⟩
        rw [if_neg hc, hread]
        rfl

/-- The complaint reads only arguments that end in the buffer. -/
theorem tooManyArgs_spec {s : Split} (h : ∀ p ∈ s.argv, 0 ∈ s.mem.drop p) :
    ∃ console, tooManyArgs s = some { s with console := console } := by
  have hread : ∀ argv : List Nat, (∀ p ∈ argv, 0 ∈ s.mem.drop p) →
      ∃ args, argv.mapM (fun p => untilNul (s.mem.drop p)) = some args := by
    intro argv
    induction argv with
    | nil => exact fun _ => ⟨[], rfl⟩
    | cons p rest ih =>
        intro hall
        obtain ⟨first, hfirst⟩ := exists_untilNul (hall p List.mem_cons_self)
        obtain ⟨args, hargs⟩ := ih fun q hq => hall q (List.mem_cons_of_mem _ hq)
        exact ⟨first :: args, by simp [hfirst, hargs]⟩
  obtain ⟨args, hargs⟩ := hread s.argv h
  exact ⟨_, by rw [tooManyArgs, hargs]; rfl⟩

private theorem forall_mem_left {α β : Type} {R : α → β → Prop} {P : α → Prop} {xs : List α}
    {ys : List β} (h : List.Forall₂ R xs ys) (hP : ∀ x y, R x y → P x) : ∀ x ∈ xs, P x := by
  induction h with
  | nil => exact fun x hx => absurd hx List.not_mem_nil
  | cons hxy _ ih => exact List.forall_mem_cons.mpr ⟨hP _ _ hxy, ih⟩

theorem forall₂_append {α β : Type} {R : α → β → Prop} {xs : List α} {ys : List β} {x : α} {y : β}
    (h : List.Forall₂ R xs ys) (hxy : R x y) : List.Forall₂ R (xs ++ [x]) (ys ++ [y]) :=
  List.rel_append h (List.Forall₂.cons hxy List.Forall₂.nil)

/-- The tokens so far, each behind the last and with its NUL. -/
theorem holds_all {stop : Nat} {argv : List Nat} {done : List (List Byte)}
    (hs : Stripped text mem mem' pos stop)
    (h : List.Forall₂ (Pending text mem pos) argv done) :
    List.Forall₂ (fun p token => Holds mem' p token ∧ p + token.length ≤ stop) argv done :=
  h.imp fun _ _ hp => hs.holds hp

private theorem splitPass_spec {s : Split} {done : List (List Byte)} (h : Scanned text s done)
    (hlt : s.position < text.length) (hfuel : text.length - s.position < fuel) :
    (∃ s', splitPass fuel text.length s = some (s', true) ∧ Finished text s') ∨
    ∃ s' done', splitPass fuel text.length s = some (s', false) ∧ Scanned text s' done' ∧
      s.position < s'.position := by
  obtain ⟨mem, stop, hstrip, hs⟩ := stripBlank_spec h.ahead h.size h.le hfuel
  have hsize : mem.length = text.length + 1 := hs.size.trans h.size
  have hstop := hs.stop_le
  have hle := hs.le
  have hkept := holds_all hs h.args
  have hholds : List.Forall₂ (Holds mem) s.argv done := hkept.imp fun _ _ hk => hk.1
  have htokens : tokens text = done ++ tokens (text.drop stop) := by
    rw [h.tokens_eq, hs.tokens_eq]
  have hlen : s.argv.length = done.length := h.args.length_eq
  have hfew := h.few
  unfold splitPass
  rw [hstrip, Option.bind_eq_bind, Option.bind_some]
  dsimp only
  by_cases hfull : finshArgMax ≤ s.argv.length
  · -- what is left over is not looked at
    have hread : ∀ p ∈ s.argv, 0 ∈ mem.drop p := by
      refine forall_mem_left hholds ?_
      intro p token hheld
      have hin : (mem.drop p)[token.length]? = some 0 := by
        rw [List.getElem?_drop]
        exact hheld.ends
      exact List.mem_of_getElem? hin
    obtain ⟨console, hconsole⟩ :=
      @tooManyArgs_spec { s with mem := mem, position := stop } hread
    left
    refine ⟨{ s with mem := mem, position := stop, console := console }, ?_, hsize, ?_, hfew⟩
    · rw [if_pos hfull, hconsole]
      rfl
    rw [htokens, List.take_append_of_le_length (by omega), List.take_of_length_le (by omega)]
    exact hholds
  · rw [if_neg hfull]
    by_cases hend : text.length ≤ stop
    · -- nothing but blanks
      left
      refine ⟨_, if_pos hend, hsize, ?_, hfew⟩
      rw [htokens, List.drop_of_length_le hend, tokens, List.append_nil,
        List.take_of_length_le (by omega)]
      exact hholds
    · have hlt' : stop < text.length := by omega
      have hnonblank := hs.stops hlt'
      have hpush : ∀ p, pushArg s.argv p = some (s.argv ++ [p]) := fun p => if_pos (by omega)
      have hfew' : ∀ p, (s.argv ++ [p]).length ≤ finshArgMax := by
        intro p
        rw [List.length_append, List.length_singleton]
        omega
      rw [if_neg hend, hs.ahead.get hlt']
      simp only [Option.bind_eq_bind, Option.bind_some]
      rw [List.drop_eq_getElem_cons hlt', tokens, hnonblank, if_neg (by decide)] at htokens
      by_cases hquote : text[stop] = quote
      · rw [if_pos hquote] at htokens
        generalize htoken : quoted false (text.drop (stop + 1)) = token at htokens
        have hnext : Ahead text mem (stop + 1) := hs.ahead.mono (Nat.le_succ stop)
        have hpre : token <+: text.drop (stop + 1) := htoken ▸ quoted_prefix _ _
        have hfits := hpre.length_le
        rw [List.length_drop] at hfits
        have hscan : skipString fuel mem text.length (stop + 1) =
            some (stop + 1 + token.length) := by
          rw [skipString_eq hnext (by omega) (by omega), htoken]
        simp only [if_pos hquote, hpush, Option.bind_some, hscan]
        by_cases hlast : text.length ≤ stop + 1 + token.length
        · -- the string is not closed
          left
          refine ⟨_, if_pos hlast, hsize, ?_, hfew' _⟩
          rw [htokens, List.drop_drop, List.drop_of_length_le (by omega), tokens,
            List.take_of_length_le (by simp; omega)]
          apply forall₂_append hholds
          refine ⟨hnext.bytes hpre, ?_⟩
          rw [show stop + 1 + token.length = text.length by omega]
          exact hs.ahead.nul hstop
        · right
          have hwrite : write mem (stop + 1 + token.length) 0 =
              some (mem.set (stop + 1 + token.length) 0) := if_pos (by omega)
          refine ⟨{ mem := mem.set (stop + 1 + token.length) 0
                    position := stop + 1 + token.length + 1
                    argv := s.argv ++ [stop + 1], console := s.console }, done ++ [token],
            ?_, ⟨?_, ?_, ?_, ?_, ?_, hfew' _⟩, ?_⟩
          · rw [if_neg hlast, hwrite]
            rfl
          · rw [List.length_set]
            exact hsize
          · dsimp only
            omega
          · intro p hp
            dsimp only at hp ⊢
            rw [List.getElem?_set_ne (by omega)]
            exact hs.ahead p (by omega)
          · rw [htokens, List.drop_drop, List.append_assoc]
            rfl
          · dsimp only
            apply forall₂_append
            · refine hkept.imp fun p t hk => ⟨?_, ?_, Or.inl ⟨?_, ?_⟩⟩
              · intro i hi
                rw [List.getElem?_set_ne (by omega)]
                exact hk.1.bytes i hi
              · omega
              · rw [List.getElem?_set_ne (by omega)]
                exact hk.1.ends
              · omega
            · refine ⟨?_, by omega, Or.inl ⟨?_, by omega⟩⟩
              · intro i hi
                rw [List.getElem?_set_ne (by omega)]
                exact hnext.bytes hpre i hi
              · rw [List.getElem?_set_self (by omega)]
          · dsimp only
            omega
      · rw [if_neg hquote] at htokens
        generalize htoken : word (text.drop (stop + 1)) = rest at htokens
        have hword : word (text.drop stop) = text[stop] :: rest := by
          rw [List.drop_eq_getElem_cons hlt', word_cons hnonblank, htoken]
        have hpre : text[stop] :: rest <+: text.drop stop := by
          rw [← hword]
          exact List.takeWhile_prefix _
        have hfits := hpre.length_le
        rw [List.length_drop, List.length_cons] at hfits
        have hscan : skipWord fuel mem text.length stop = some (stop + (rest.length + 1)) := by
          rw [skipWord_eq hs.ahead hstop (by omega), hword, List.length_cons]
        simp only [if_neg hquote, hpush, Option.bind_some, hscan]
        by_cases hlast : text.length ≤ stop + (rest.length + 1)
        · left
          refine ⟨_, by rw [decide_eq_true hlast], hsize, ?_, hfew' _⟩
          rw [htokens, List.drop_drop, List.drop_of_length_le (by omega), tokens,
            List.take_of_length_le (by simp; omega)]
          apply forall₂_append hholds
          refine ⟨hs.ahead.bytes hpre, ?_⟩
          rw [List.length_cons, show stop + (rest.length + 1) = text.length by omega]
          exact hs.ahead.nul hstop
        · right
          refine ⟨{ mem := mem, position := stop + (rest.length + 1), argv := s.argv ++ [stop]
                    console := s.console }, done ++ [text[stop] :: rest],
            by rw [decide_eq_false hlast], ⟨hsize, ?_, ?_, ?_, ?_, hfew' _⟩, ?_⟩
          · dsimp only
            omega
          · exact hs.ahead.mono (Nat.le_add_right _ _)
          · rw [htokens, List.drop_drop, List.append_assoc, Nat.add_assoc, Nat.add_comm 1]
            rfl
          · dsimp only
            apply forall₂_append
            · exact hkept.imp fun p t hk => ⟨hk.1.bytes, by omega, Or.inl ⟨hk.1.ends, by omega⟩⟩
            · refine ⟨hs.ahead.bytes hpre, le_rfl, Or.inr ⟨rfl, ?_⟩⟩
              intro hin
              have hends := word_ends (text.drop stop)
              simp only [List.get_eq_getElem, hword, List.length_cons, List.length_drop,
                List.getElem_drop] at hends
              exact hends (by omega)
          · dsimp only
            omega

private theorem splitLoop_spec {s : Split} {done : List (List Byte)} (h : Scanned text s done)
    (hfuel : text.length - s.position < fuel) :
    ∃ s', splitLoop fuel text.length s = some s' ∧ Finished text s' := by
  induction fuel generalizing s done with
  | zero => omega
  | succ fuel ih =>
      unfold splitLoop
      by_cases hlt : s.position < text.length
      · rw [if_pos hlt, Option.bind_eq_bind]
        rcases splitPass_spec h hlt hfuel with ⟨s', hpass, hfin⟩ | ⟨s', done', hpass, hscan, hmove⟩
        · exact ⟨s', by rw [hpass]; rfl, hfin⟩
        · obtain ⟨s'', hloop, hfin⟩ := ih hscan (by omega)
          exact ⟨s'', by rw [hpass]; exact hloop, hfin⟩
      · have hend : s.position = text.length := Nat.le_antisymm h.le (by omega)
        have hfew := h.few
        have hlen : s.argv.length = done.length := h.args.length_eq
        refine ⟨s, if_neg hlt, h.size, ?_, h.few⟩
        rw [h.tokens_eq, hend, List.drop_length, tokens, List.append_nil,
          List.take_of_length_le (by omega)]
        refine h.args.imp fun p token hp => ⟨hp.bytes, ?_⟩
        rcases hp.ends with ⟨hnul, _⟩ | ⟨heq, _⟩
        · exact hnul
        · rw [heq, hend]
          exact h.ahead.nul h.le

end Loops

/-- `msh_split` returns the first `FINSH_ARG_MAX` tokens of the line, each with its NUL, and leaves
the buffer at no byte. -/
theorem mshSplit_spec (text : List Byte) (fuel : Nat) (hfuel : text.length < fuel) :
    ∃ s, mshSplit fuel (text ++ [0]) text.length = some s ∧
      s.mem.length = text.length + 1 ∧ s.argv.length ≤ finshArgMax ∧
      List.Forall₂ (Holds s.mem) s.argv ((tokens text).take finshArgMax) := by
  have hstart : Scanned text { mem := text ++ [0], position := 0, argv := [], console := [] } [] :=
    { size := by simp
      le := Nat.zero_le _
      ahead := fun _ _ => rfl
      tokens_eq := rfl
      args := List.Forall₂.nil
      few := Nat.zero_le _ }
  obtain ⟨s, hs, hfin⟩ := splitLoop_spec hstart (by simpa using hfuel)
  exact ⟨s, hs, hfin.size, hfin.few, hfin.args⟩

/-- The line `a "b` has a string that is not closed. -/
theorem mshSplit_spec_open : 4 < 5 ∧
    ∃ s, mshSplit 5 ([0x61, space, quote, 0x62] ++ [0]) 4 = some s ∧ s.mem.length = 5 ∧
      s.argv.length ≤ finshArgMax ∧ List.Forall₂ (Holds s.mem) s.argv
        ((tokens [0x61, space, quote, 0x62]).take finshArgMax) :=
  ⟨by decide, mshSplit_spec [0x61, space, quote, 0x62] 5 (by decide)⟩

end RtHypervisor.Ports.MshSplit
