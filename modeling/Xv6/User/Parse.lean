import Xv6.User.Scan
/-!
# User.Parse — the parser of the shell (sh.c)

`parsecmd` and the procedures below it, which recurse and loop on fuel: what runs out of it does not end.  The tree holds
places in the line; `nulterminate` writes a NUL at the end of each.
-/
namespace Xv6
namespace Sh

abbrev maxArgs : Nat := 10

abbrev rdonly : Nat := 0
abbrev wronly : Nat := 1
abbrev create : Nat := 0x200

/-- `struct cmd`, with `argv` and `eargv` as places. -/
inductive Cmd where
  | exec (argv : List Word)
  | redir (cmd : Cmd) (file : Word) (mode fd : Nat)
  | pipe (left right : Cmd)
  | list (left right : Cmd)
  | back (cmd : Cmd)

/-- `cmd->argv[argc] = q; cmd->eargv[argc] = eq`, for the `execcmd` that redirections were put around. -/
def Cmd.push (w : Word) : Cmd → Cmd
  | .exec argv           => .exec (argv ++ [w])
  | .redir c file mode f => .redir (c.push w) file mode f
  | c                    => c

/-- The switch of `parseredirs`. -/
def redirTo (tok : Byte) (cmd : Cmd) (file : Word) : Cmd :=
  if tok = lt then .redir cmd file rdonly 0
  else if tok = gt then .redir cmd file (wronly ||| create) 1
  else if tok = plus then .redir cmd file (wronly ||| create) 1
  else cmd

section Parser

variable (str : List Byte)

def parseredirs : Nat → Cmd → C Cmd
  | 0, _       => Prog.stop .stuck
  | k + 1, cmd => do
    let more ← peek str [lt, gt]
    if more = true then
      let t ← gettoken str
      let f ← gettoken str
      if f.tok ≠ letter then Prog.stop (.panic "missing file for redirection")
      else parseredirs k (redirTo t.tok cmd ⟨f.q, f.eq⟩)
    else pure cmd

/-- The loop of `parseexec`. -/
def parseargs : Nat → Nat → Cmd → C Cmd
  | 0, _, _          => Prog.stop .stuck
  | k + 1, argc, ret => do
    let done ← peek str [bar, rpar, amp, semi]
    if done = true then pure ret
    else
      let t ← gettoken str
      if t.tok = 0 then pure ret
      else if t.tok ≠ letter then Prog.stop (.panic "syntax")
      else if argc + 1 ≥ maxArgs then Prog.stop (.panic "too many args")
      else do
        let ret ← parseredirs str k (ret.push ⟨t.q, t.eq⟩)
        parseargs k (argc + 1) ret

/-- The loop of `parseline`. -/
def parseback : Nat → Cmd → C Cmd
  | 0, _       => Prog.stop .stuck
  | k + 1, cmd => do
    let more ← peek str [amp]
    if more = true then
      let _ ← gettoken str
      parseback k (.back cmd)
    else pure cmd

mutual

def parseline : Nat → C Cmd
  | 0     => Prog.stop .stuck
  | k + 1 => do
    let cmd ← parsepipe k
    let cmd ← parseback str k cmd
    let more ← peek str [semi]
    if more = true then
      let _ ← gettoken str
      let right ← parseline k
      pure (.list cmd right)
    else pure cmd

def parsepipe : Nat → C Cmd
  | 0     => Prog.stop .stuck
  | k + 1 => do
    let cmd ← parseexec k
    let more ← peek str [bar]
    if more = true then
      let _ ← gettoken str
      let right ← parsepipe k
      pure (.pipe cmd right)
    else pure cmd

def parseexec : Nat → C Cmd
  | 0     => Prog.stop .stuck
  | k + 1 => do
    let block ← peek str [lpar]
    if block = true then parseblock k
    else
      let ret ← parseredirs str k (.exec [])
      parseargs str k 0 ret

def parseblock : Nat → C Cmd
  | 0     => Prog.stop .stuck
  | k + 1 => do
    let block ← peek str [lpar]
    if block = false then Prog.stop (.panic "parseblock")
    else
      let _ ← gettoken str
      let cmd ← parseline k
      let close ← peek str [rpar]
      if close = false then Prog.stop (.panic "syntax - missing )")
      else
        let _ ← gettoken str
        parseredirs str k cmd

end

def fuel : Nat := 4 * str.length + 4

/-- `parsecmd` before `nulterminate`; the cursor starts at 0. -/
def parsecmd : C Cmd := do
  let cmd ← parseline str (fuel str)
  let _ ← peek str []
  let s ← Prog.get
  if s ≠ str.length then Prog.stop (.panic "syntax") else pure cmd

def memory (s : Nat) : Byte := str.getD s 0

end Parser

/-- `*s = 0`. -/
def zero (s : Nat) (mem : Nat → Byte) (p : Nat) : Byte := if p = s then 0 else mem p

def nulterminate : Cmd → (Nat → Byte) → Nat → Byte
  | .exec argv, mem         => argv.foldl (fun m w => zero w.eq m) mem
  | .redir cmd file _ _, mem => zero file.eq (nulterminate cmd mem)
  | .pipe left right, mem   => nulterminate right (nulterminate left mem)
  | .list left right, mem   => nulterminate right (nulterminate left mem)
  | .back cmd, mem          => nulterminate cmd mem

/-! ## The grammar -/

inductive Op where
  | input
  | output
  | append

structure Redir where
  op   : Op
  file : Word

def Op.token : Op → Token
  | .input  => .lt
  | .output => .gt
  | .append => .append

/-- The redirection `r` of what precedes it. -/
def Redir.wrap (cmd : Cmd) (r : Redir) : Cmd :=
  match r.op with
  | .input  => .redir cmd r.file rdonly 0
  | .output => .redir cmd r.file (wronly ||| create) 1
  | .append => .redir cmd r.file (wronly ||| create) 1

def Redir.tokens (r : Redir) : List Token := [r.op.token, .word r.file]

def Cmd.wrap (cmd : Cmd) (rs : List Redir) : Cmd := rs.foldl Redir.wrap cmd

/-- `n` times in the background. -/
def Cmd.backs (cmd : Cmd) : Nat → Cmd
  | 0     => cmd
  | n + 1 => (Cmd.back cmd).backs n

structure Arg where
  word   : Word
  redirs : List Redir

def Arg.tokens (a : Arg) : List Token := .word a.word :: a.redirs.flatMap Redir.tokens

inductive Kind where
  | line
  | pipe
  | cmd

/-- The grammar of command lines, with the tree of each derivation. -/
inductive Derives : Kind → List Token → Cmd → Prop where
  | line {ts c} (n : Nat) : Derives .pipe ts c → Derives .line (ts ++ List.replicate n .amp) (c.backs n)
  | list {ts us c d} (n : Nat) : Derives .pipe ts c → Derives .line us d →
      Derives .line (ts ++ (List.replicate n .amp ++ .semi :: us)) (.list (c.backs n) d)
  | single {ts c} : Derives .cmd ts c → Derives .pipe ts c
  | pipe {ts us c d} : Derives .cmd ts c → Derives .pipe us d → Derives .pipe (ts ++ .bar :: us) (.pipe c d)
  | block {ts c} (rs : List Redir) : Derives .line ts c →
      Derives .cmd (.lpar :: (ts ++ .rpar :: rs.flatMap Redir.tokens)) (c.wrap rs)
  | exec (rs : List Redir) (as : List Arg) : as.length ≤ maxArgs - 1 →
      Derives .cmd (rs.flatMap Redir.tokens ++ as.flatMap Arg.tokens)
        ((Cmd.exec (as.map Arg.word)).wrap (rs ++ as.flatMap Arg.redirs))

theorem wrap_append (cmd : Cmd) (rs : List Redir) (r : Redir) : cmd.wrap (rs ++ [r]) = r.wrap (cmd.wrap rs) :=
  List.foldl_append

theorem push_redir (r : Redir) (cmd : Cmd) (w : Word) : (r.wrap cmd).push w = r.wrap (cmd.push w) := by
  unfold Redir.wrap
  split <;> rfl

theorem push_wrap (argv : List Word) (rs : List Redir) (w : Word) :
    ((Cmd.exec argv).wrap rs).push w = (Cmd.exec (argv ++ [w])).wrap rs := by
  induction rs using List.reverseRecOn with
  | nil => rfl
  | append_singleton rs r ih => rw [wrap_append, wrap_append, push_redir, ih]

theorem redirTo_op (op : Op) (cmd : Cmd) (w : Word) : redirTo op.token.ret cmd w = Redir.wrap cmd ⟨op, w⟩ := by
  cases op with
  | input => rfl
  | output => rfl
  | append => rfl

theorem starts_op (op : Op) (ts : List Token) : starts [lt, gt] (op.token :: ts) = true := by
  cases op with
  | input => rfl
  | output => rfl
  | append => rfl

theorem op_of_starts {ts : List Token} (h : starts [lt, gt] ts = true) : ∃ op us, ts = Op.token op :: us := by
  cases ts with
  | nil => cases h
  | cons x us =>
    have hx : x.lead ∈ [lt, gt] := of_decide_eq_true h
    cases x with
    | lt => exact ⟨.input, us, rfl⟩
    | gt => exact ⟨.output, us, rfl⟩
    | append => exact ⟨.append, us, rfl⟩
    | word w => exact absurd (show letter ∈ [lt, gt] from hx) (by decide)
    | _ => exact absurd hx (by decide)

def plain : List Token := [.bar, .amp, .semi, .lpar, .rpar]

theorem lead_plain {x y : Token} (hy : y ∈ plain) (h : x.lead = y.lead) : x = y := by
  have hword : ∀ y ∈ plain, letter ≠ y.lead := by decide
  have hsym : ∀ x ∈ [Token.lt, .gt, .append, .bar, .amp, .semi, .lpar, .rpar], ∀ y ∈ plain, x.lead = y.lead → x = y := by
    decide
  cases x with
  | word w => exact absurd h (hword y hy)
  | _ => exact hsym _ (by decide) y hy h

theorem eq_of_starts {y : Token} (hy : y ∈ plain) {ts : List Token} (h : starts [y.lead] ts = true) :
    ∃ us, ts = y :: us := by
  cases ts with
  | nil => cases h
  | cons x us => exact ⟨us, congrArg (· :: us) (lead_plain hy (List.mem_singleton.1 (of_decide_eq_true h)))⟩

theorem ret_letter {x : Token} (h : x.ret = letter) : ∃ w, x = .word w := by
  cases x with
  | word w => exact ⟨w, rfl⟩
  | _ => exact absurd h (by decide)

theorem ret_ne_zero (x : Token) : x.ret ≠ 0 := by
  cases x with
  | word w => exact (by decide : letter ≠ 0)
  | _ => decide

/-! ## What is parsed derives from the grammar -/

def Stop.IsPanic (e : Stop) : Prop := ∃ msg, e = .panic msg

variable {str : List Byte} {ts us : List Token} {p k : Nat} {α : Type}

open Prog (wpt wpt_bind wpt_get wpt_pure)

theorem wpt_peek (hnul : (0 : Byte) ∉ str) (h : At str ts p) {toks : List Byte} (htoks : toks ⊆ symbols)
    {Q : Bool → Nat → List Empty → Prop} {E : Stop → Prop} (hq : ∀ p', At str ts p' → Q (starts toks ts) p' []) :
    wpt (peek str toks) Q E p := by
  obtain ⟨p', hrun, hat, -⟩ := peek_run hnul h htoks
  exact Prog.wpt_of_run hrun (hq p' hat)

theorem wpt_gettoken (hnul : (0 : Byte) ∉ str) {x : Token} (h : At str (x :: ts) p)
    {Q : Lexeme → Nat → List Empty → Prop} {E : Stop → Prop} (hq : ∀ r p', At str ts p' → r.tok = x.ret →
      (∀ w, x = .word w → (⟨r.q, r.eq⟩ : Word) = w) → Q r p' []) : wpt (gettoken str) Q E p := by
  obtain ⟨r, p', hrun, htok, hword, hat⟩ := (gettoken_run hnul h).2 x ts rfl
  exact Prog.wpt_of_run hrun (hq r p' hat htok hword)

theorem wpt_gettoken_nil (hnul : (0 : Byte) ∉ str) (h : At str [] p) {Q : Lexeme → Nat → List Empty → Prop}
    {E : Stop → Prop} (hq : ∀ r p', At str [] p' → r.tok = 0 → Q r p' []) : wpt (gettoken str) Q E p := by
  obtain ⟨r, p', hrun, htok, hat⟩ := (gettoken_run hnul h).1 rfl
  exact Prog.wpt_of_run hrun (hq r p' hat htok)

theorem parseredirs_wpt (hnul : (0 : Byte) ∉ str) : ∀ (k : Nat) (ts : List Token) (cmd : Cmd) (p : Nat), At str ts p →
    ts.length < k → wpt (parseredirs str k cmd) (fun c p' _ => ∃ rs us, ts = rs.flatMap Redir.tokens ++ us ∧
      At str us p' ∧ c = cmd.wrap rs) Stop.IsPanic p
  | 0, _, _, _, _, hk => absurd hk (Nat.not_lt_zero _)
  | k + 1, ts, cmd, p, h, hk => by
    unfold parseredirs
    rw [wpt_bind]
    refine wpt_peek hnul h (by decide) fun p₁ h₁ => Prog.wpt_ite (fun hmore => ?_) fun _ => ?_
    · obtain ⟨op, us, rfl⟩ := op_of_starts hmore
      rw [wpt_bind]
      refine wpt_gettoken hnul h₁ fun t p₂ h₂ ht _ => ?_
      rw [wpt_bind, ht]
      cases us with
      | nil =>
        refine wpt_gettoken_nil hnul h₂ fun r p₃ _ hr => ?_
        rw [if_pos (by rw [hr]; decide)]
        exact ⟨_, rfl⟩
      | cons x us =>
        refine wpt_gettoken hnul h₂ fun f p₃ h₃ hf hw => ?_
        refine Prog.wpt_ite (fun _ => ⟨_, rfl⟩) fun hletter => ?_
        obtain ⟨w, rfl⟩ := ret_letter (hf.symm.trans (not_not.1 hletter))
        rw [hw w rfl, redirTo_op]
        refine (parseredirs_wpt hnul k us (Redir.wrap cmd ⟨op, w⟩) p₃ h₃ ?_).imp ?_
        · simp only [List.length_cons] at hk
          omega
        · rintro c p' _ ⟨rs, vs, rfl, hat, rfl⟩
          exact ⟨⟨op, w⟩ :: rs, vs, rfl, hat, rfl⟩
    · rw [wpt_pure]
      exact ⟨[], ts, rfl, h₁, rfl⟩

theorem parseargs_wpt (hnul : (0 : Byte) ∉ str) : ∀ (k : Nat) (ts : List Token) (argv : List Word) (rs : List Redir)
    (p : Nat), At str ts p → ts.length < k → argv.length < maxArgs →
    wpt (parseargs str k argv.length ((Cmd.exec argv).wrap rs)) (fun c p' _ => ∃ (as : List Arg) (us : List Token),
      ts = as.flatMap Arg.tokens ++ us ∧ At str us p' ∧ argv.length + as.length < maxArgs ∧
      c = (Cmd.exec (argv ++ as.map Arg.word)).wrap (rs ++ as.flatMap Arg.redirs)) Stop.IsPanic p
  | 0, _, _, _, _, _, hk, _ => absurd hk (Nat.not_lt_zero _)
  | k + 1, ts, argv, rs, p, h, hk, hlen => by
    have hdone : ∀ p', At str ts p' → ∃ (as : List Arg) (us : List Token), ts = as.flatMap Arg.tokens ++ us ∧
        At str us p' ∧ argv.length + as.length < maxArgs ∧
        (Cmd.exec argv).wrap rs = (Cmd.exec (argv ++ as.map Arg.word)).wrap (rs ++ as.flatMap Arg.redirs) := by
      intro p' hp'
      refine ⟨[], ts, rfl, hp', hlen, ?_⟩
      rw [List.map_nil, List.flatMap_nil, List.append_nil, List.append_nil]
    unfold parseargs
    rw [wpt_bind]
    refine wpt_peek hnul h (by decide) fun p₁ h₁ => Prog.wpt_ite (fun _ => hdone p₁ h₁) fun _ => ?_
    rw [wpt_bind]
    cases ts with
    | nil =>
      refine wpt_gettoken_nil hnul h₁ fun r p₂ h₂ hr => ?_
      rw [if_pos hr]
      exact hdone p₂ h₂
    | cons x us =>
      refine wpt_gettoken hnul h₁ fun t p₂ h₂ ht hw => ?_
      rw [ht, if_neg (ret_ne_zero x)]
      refine Prog.wpt_ite (fun _ => ⟨_, rfl⟩) fun hletter => ?_
      obtain ⟨w, rfl⟩ := ret_letter (not_not.1 hletter)
      refine Prog.wpt_ite (fun _ => ⟨_, rfl⟩) fun hmax => ?_
      rw [hw w rfl, push_wrap, wpt_bind]
      rw [List.length_cons] at hk
      refine (parseredirs_wpt hnul k us _ p₂ h₂ (by omega)).imp ?_
      rintro c p₃ _ ⟨rs', vs, rfl, h₃, rfl⟩
      rw [List.length_append] at hk
      have hargc : argv.length + 1 = (argv ++ [w]).length := by rw [List.length_append, List.length_singleton]
      have hwrap : ((Cmd.exec (argv ++ [w])).wrap rs).wrap rs' = (Cmd.exec (argv ++ [w])).wrap (rs ++ rs') :=
        List.foldl_append.symm
      rw [hargc, hwrap]
      refine (parseargs_wpt hnul k vs (argv ++ [w]) (rs ++ rs') p₃ h₃ (by omega) (by omega)).imp ?_
      rintro c p₄ _ ⟨as, us, rfl, h₄, hlt, rfl⟩
      refine ⟨⟨w, rs'⟩ :: as, us, ?_, h₄, ?_, ?_⟩
      · rw [List.flatMap_cons, List.append_assoc]
        rfl
      · rw [List.length_append, List.length_singleton] at hlt
        rw [List.length_cons]
        omega
      · rw [List.append_assoc, List.append_assoc]
        rfl

theorem parseback_wpt (hnul : (0 : Byte) ∉ str) : ∀ (k : Nat) (ts : List Token) (cmd : Cmd) (p : Nat), At str ts p →
    ts.length < k → wpt (parseback str k cmd) (fun c p' _ => ∃ n us, ts = List.replicate n Token.amp ++ us ∧
      At str us p' ∧ c = cmd.backs n) Stop.IsPanic p
  | 0, _, _, _, _, hk => absurd hk (Nat.not_lt_zero _)
  | k + 1, ts, cmd, p, h, hk => by
    unfold parseback
    rw [wpt_bind]
    refine wpt_peek hnul h (by decide) fun p₁ h₁ => Prog.wpt_ite (fun hmore => ?_) fun _ => ?_
    · obtain ⟨us, rfl⟩ := eq_of_starts (y := .amp) (by decide) hmore
      rw [wpt_bind]
      refine wpt_gettoken hnul h₁ fun t p₂ h₂ _ _ => ?_
      refine (parseback_wpt hnul k us (.back cmd) p₂ h₂ (Nat.lt_of_succ_lt_succ hk)).imp ?_
      rintro c p' _ ⟨n, vs, rfl, hat, rfl⟩
      exact ⟨n + 1, vs, rfl, hat, rfl⟩
    · rw [wpt_pure]
      exact ⟨0, ts, rfl, h₁, rfl⟩

/-- What `c` takes of the tokens `ts` derives from the grammar. -/
def Sound (str : List Byte) (c : C Cmd) (kd : Kind) (ts : List Token) : Prop := ∀ p, At str ts p →
  wpt c (fun cmd p' _ => ∃ pre us, ts = pre ++ us ∧ At str us p' ∧ Derives kd pre cmd) Stop.IsPanic p

theorem parseline_step (hnul : (0 : Byte) ∉ str) (hpipe : ∀ ts, 4 * ts.length + 3 ≤ k → Sound str (parsepipe str k) .pipe ts)
    (hline : ∀ ts, 4 * ts.length + 4 ≤ k → Sound str (parseline str k) .line ts) (hk : 4 * ts.length + 4 ≤ k + 1) :
    Sound str (parseline str (k + 1)) .line ts := by
  intro p h
  unfold parseline
  rw [wpt_bind]
  refine (hpipe ts (by omega) p h).imp ?_
  rintro c p₁ _ ⟨pre, us, rfl, h₁, hc⟩
  rw [List.length_append] at hk
  rw [wpt_bind]
  refine (parseback_wpt hnul k us c p₁ h₁ (by omega)).imp ?_
  rintro _ p₂ _ ⟨n, vs, rfl, h₂, rfl⟩
  rw [wpt_bind]
  refine wpt_peek hnul h₂ (by decide) fun p₃ h₃ => Prog.wpt_ite (fun hsemi => ?_) fun _ => ?_
  · obtain ⟨vs, rfl⟩ := eq_of_starts (y := .semi) (by decide) hsemi
    rw [wpt_bind]
    refine wpt_gettoken hnul h₃ fun t p₄ h₄ _ _ => ?_
    rw [wpt_bind]
    rw [List.length_append, List.length_cons] at hk
    refine (hline vs (by omega) p₄ h₄).imp ?_
    rintro d p₅ _ ⟨pre', ws, rfl, h₅, hd⟩
    rw [wpt_pure]
    refine ⟨_, ws, ?_, h₅, .list n hc hd⟩
    rw [List.append_assoc, List.append_assoc]
    rfl
  · rw [wpt_pure]
    refine ⟨_, vs, ?_, h₃, .line n hc⟩
    rw [List.append_assoc]

theorem parsepipe_step (hnul : (0 : Byte) ∉ str) (hexec : ∀ ts, 4 * ts.length + 2 ≤ k → Sound str (parseexec str k) .cmd ts)
    (hpipe : ∀ ts, 4 * ts.length + 3 ≤ k → Sound str (parsepipe str k) .pipe ts) (hk : 4 * ts.length + 3 ≤ k + 1) :
    Sound str (parsepipe str (k + 1)) .pipe ts := by
  intro p h
  unfold parsepipe
  rw [wpt_bind]
  refine (hexec ts (by omega) p h).imp ?_
  rintro c p₁ _ ⟨pre, us, rfl, h₁, hc⟩
  rw [List.length_append] at hk
  rw [wpt_bind]
  refine wpt_peek hnul h₁ (by decide) fun p₂ h₂ => Prog.wpt_ite (fun hbar => ?_) fun _ => ?_
  · obtain ⟨vs, rfl⟩ := eq_of_starts (y := .bar) (by decide) hbar
    rw [wpt_bind]
    refine wpt_gettoken hnul h₂ fun t p₃ h₃ _ _ => ?_
    rw [wpt_bind]
    rw [List.length_cons] at hk
    refine (hpipe vs (by omega) p₃ h₃).imp ?_
    rintro d p₄ _ ⟨pre', ws, rfl, h₄, hd⟩
    rw [wpt_pure]
    refine ⟨_, ws, ?_, h₄, .pipe hc hd⟩
    rw [List.append_assoc]
    rfl
  · rw [wpt_pure]
    exact ⟨pre, us, rfl, h₂, .single hc⟩

theorem parseblock_step (hnul : (0 : Byte) ∉ str) (hline : ∀ ts, 4 * ts.length + 4 ≤ k →
    Sound str (parseline str k) .line ts)
    (hk : 4 * ts.length + 1 ≤ k + 1) : Sound str (parseblock str (k + 1)) .cmd ts := by
  intro p h
  unfold parseblock
  rw [wpt_bind]
  refine wpt_peek hnul h (by decide) fun p₁ h₁ => Prog.wpt_ite (fun _ => ⟨_, rfl⟩) fun hlpar => ?_
  obtain ⟨us, rfl⟩ := eq_of_starts (y := .lpar) (by decide) (Bool.not_eq_false _ ▸ hlpar)
  rw [List.length_cons] at hk
  rw [wpt_bind]
  refine wpt_gettoken hnul h₁ fun t p₂ h₂ _ _ => ?_
  rw [wpt_bind]
  refine (hline us (by omega) p₂ h₂).imp ?_
  rintro c p₃ _ ⟨pre, vs, rfl, h₃, hc⟩
  rw [wpt_bind]
  refine wpt_peek hnul h₃ (by decide) fun p₄ h₄ => Prog.wpt_ite (fun _ => ⟨_, rfl⟩) fun hrpar => ?_
  obtain ⟨vs, rfl⟩ := eq_of_starts (y := .rpar) (by decide) (Bool.not_eq_false _ ▸ hrpar)
  rw [List.length_append, List.length_cons] at hk
  rw [wpt_bind]
  refine wpt_gettoken hnul h₄ fun t p₅ h₅ _ _ => ?_
  refine (parseredirs_wpt hnul k vs c p₅ h₅ (by omega)).imp ?_
  rintro _ p₆ _ ⟨rs, ws, rfl, h₆, rfl⟩
  refine ⟨_, ws, ?_, h₆, .block rs hc⟩
  rw [List.cons_append, List.append_assoc]
  rfl

theorem parseexec_step (hnul : (0 : Byte) ∉ str) (hblock : ∀ ts, 4 * ts.length + 1 ≤ k →
    Sound str (parseblock str k) .cmd ts)
    (hk : 4 * ts.length + 2 ≤ k + 1) : Sound str (parseexec str (k + 1)) .cmd ts := by
  intro p h
  unfold parseexec
  rw [wpt_bind]
  refine wpt_peek hnul h (by decide) fun p₁ h₁ => Prog.wpt_ite (fun _ => hblock ts (by omega) p₁ h₁) fun _ => ?_
  rw [wpt_bind]
  refine (parseredirs_wpt hnul k ts (.exec []) p₁ h₁ (by omega)).imp ?_
  rintro _ p₂ _ ⟨rs, us, rfl, h₂, rfl⟩
  rw [List.length_append] at hk
  refine (parseargs_wpt hnul k us [] rs p₂ h₂ (by omega) (by decide)).imp ?_
  rintro _ p₃ _ ⟨as, vs, rfl, h₃, hlt, rfl⟩
  refine ⟨_, vs, (List.append_assoc _ _ _).symm, h₃, .exec rs as ?_⟩
  rw [List.length_nil, Nat.zero_add] at hlt
  exact Nat.le_sub_one_of_lt hlt

/-- **What the parser accepts derives from the grammar**, and it ends, with a tree or in a panic. -/
theorem parse_sound (hnul : (0 : Byte) ∉ str) : ∀ k,
    (∀ ts, 4 * ts.length + 4 ≤ k → Sound str (parseline str k) .line ts) ∧
    (∀ ts, 4 * ts.length + 3 ≤ k → Sound str (parsepipe str k) .pipe ts) ∧
    (∀ ts, 4 * ts.length + 2 ≤ k → Sound str (parseexec str k) .cmd ts) ∧
    ∀ ts, 4 * ts.length + 1 ≤ k → Sound str (parseblock str k) .cmd ts
  | 0 => by
    refine ⟨fun ts hk => ?_, fun ts hk => ?_, fun ts hk => ?_, fun ts hk => ?_⟩
    all_goals exact absurd hk (Nat.not_succ_le_zero _)
  | k + 1 => by
    obtain ⟨hline, hpipe, hexec, hblock⟩ := parse_sound hnul k
    exact ⟨fun ts hk => parseline_step hnul hpipe hline hk, fun ts hk => parsepipe_step hnul hexec hpipe hk,
      fun ts hk => parseexec_step hnul hblock hk, fun ts hk => parseblock_step hnul hline hk⟩

/-! ## What derives from the grammar is parsed -/

/-- From the tokens `ts` on, `c` returns `a` and leaves `us`. -/
def Takes (str : List Byte) (c : C α) (ts : List Token) (a : α) (us : List Token) : Prop :=
  ∀ p, At str ts p → ∃ p', c p = ⟨.ok a, p', []⟩ ∧ At str us p'

section Takes

variable {β : Type} {c : C α} {f : α → C β} {a : α} {b : β} {vs : List Token}

theorem Takes.pure (a : α) : Takes str (pure a) ts a ts := fun p h => ⟨p, rfl, h⟩

theorem Takes.bind (hc : Takes str c ts a us) (hf : Takes str (f a) us b vs) : Takes str (c >>= f) ts b vs := by
  intro p h
  obtain ⟨p₁, hrun, h₁⟩ := hc p h
  obtain ⟨p₂, hrun', h₂⟩ := hf p₁ h₁
  exact ⟨p₂, (Prog.bind_run_nil hrun).trans hrun', h₂⟩

theorem Takes.peek (hnul : (0 : Byte) ∉ str) {toks : List Byte} (htoks : toks ⊆ symbols) {f : Bool → C β} {d : Bool}
    (hd : starts toks ts = d) (hf : Takes str (f d) ts b vs) : Takes str (peek str toks >>= f) ts b vs := by
  subst hd
  refine Takes.bind (fun p h => ?_) hf
  obtain ⟨p', hrun, hat, -⟩ := peek_run hnul h htoks
  exact ⟨p', hrun, hat⟩

theorem Takes.gettoken (hnul : (0 : Byte) ∉ str) {x : Token} {f : Lexeme → C β} (hf : ∀ r, r.tok = x.ret →
    (∀ w, x = .word w → (⟨r.q, r.eq⟩ : Word) = w) → Takes str (f r) ts b vs) :
    Takes str (gettoken str >>= f) (x :: ts) b vs := by
  intro p h
  obtain ⟨r, p₁, hrun, htok, hword, h₁⟩ := (gettoken_run hnul h).2 x ts rfl
  obtain ⟨p₂, hrun', h₂⟩ := hf r htok hword p₁ h₁
  exact ⟨p₂, (Prog.bind_run_nil hrun).trans hrun', h₂⟩

end Takes

variable {cmd : Cmd}

theorem parseredirs_takes (hnul : (0 : Byte) ∉ str) : ∀ (rs : List Redir) (k : Nat) (cmd : Cmd),
    (rs.flatMap Redir.tokens ++ us).length < k → starts [lt, gt] us = false →
    Takes str (parseredirs str k cmd) (rs.flatMap Redir.tokens ++ us) (cmd.wrap rs) us
  | _, 0, _, hk, _ => absurd hk (Nat.not_lt_zero _)
  | [], k + 1, cmd, _, hus => by
    unfold parseredirs
    exact Takes.peek hnul (by decide) hus (Takes.pure cmd)
  | ⟨op, w⟩ :: rs, k + 1, cmd, hk, hus => by
    unfold parseredirs
    refine Takes.peek hnul (by decide) (starts_op op _) ?_
    rw [if_pos rfl]
    refine Takes.gettoken hnul fun t ht _ => ?_
    refine Takes.gettoken hnul fun r hr hw => ?_
    have hr : r.tok = letter := hr
    rw [if_neg (not_not.2 hr), ht, hw w rfl, redirTo_op]
    refine parseredirs_takes hnul rs k _ ?_ hus
    have hlen : ((⟨op, w⟩ :: rs : List Redir).flatMap Redir.tokens ++ us).length =
        (rs.flatMap Redir.tokens ++ us).length + 2 := rfl
    omega

/-- What ends a command: nothing, or one of the bytes at which `parseexec` stops. -/
def Ends (toks : List Byte) (us : List Token) : Prop := us = [] ∨ starts toks us = true

theorem Ends.not {toks toks' : List Byte} (h : Ends toks us) (hd : ∀ c ∈ toks, c ∉ toks') : starts toks' us = false := by
  rcases h with rfl | h
  · rfl
  · cases us with
    | nil => rfl
    | cons x us => exact decide_eq_false (hd _ (of_decide_eq_true h))

theorem Ends.mono {toks toks' : List Byte} (h : Ends toks us) (hs : toks ⊆ toks') : Ends toks' us := by
  rcases h with rfl | h
  · exact .inl rfl
  · cases us with
    | nil => cases h
    | cons x us => exact .inr (decide_eq_true (hs (of_decide_eq_true h)))

theorem starts_word {toks : List Byte} (h : letter ∉ toks) (w : Word) (ts : List Token) :
    starts toks (.word w :: ts) = false := decide_eq_false h

theorem args_starts {as : List Arg} {toks : List Byte} (hus : Ends [bar, rpar, amp, semi] us)
    (htoks : ∀ c ∈ [letter, bar, rpar, amp, semi], c ∉ toks) : starts toks (as.flatMap Arg.tokens ++ us) = false := by
  cases as with
  | nil => exact hus.not fun c hc => htoks c (List.mem_cons_of_mem _ hc)
  | cons a as => exact starts_word (htoks _ List.mem_cons_self) a.word _

theorem parseargs_takes (hnul : (0 : Byte) ∉ str) (hus : Ends [bar, rpar, amp, semi] us) : ∀ (as : List Arg) (k : Nat)
    (argv : List Word) (rs : List Redir), (as.flatMap Arg.tokens ++ us).length < k → argv.length + as.length < maxArgs →
    Takes str (parseargs str k argv.length ((Cmd.exec argv).wrap rs)) (as.flatMap Arg.tokens ++ us)
      ((Cmd.exec (argv ++ as.map Arg.word)).wrap (rs ++ as.flatMap Arg.redirs)) us
  | _, 0, _, _, hk, _ => absurd hk (Nat.not_lt_zero _)
  | [], k + 1, argv, rs, _, _ => by
    rw [List.map_nil, List.flatMap_nil, List.flatMap_nil, List.append_nil, List.append_nil, List.nil_append]
    unfold parseargs
    rcases hus with rfl | hus
    · refine Takes.peek hnul (by decide) rfl ?_
      rw [if_neg (by decide)]
      intro p h
      obtain ⟨r, p', hrun, hr, h'⟩ := (gettoken_run hnul h).1 rfl
      refine ⟨p', (Prog.bind_run_nil hrun).trans ?_, h'⟩
      rw [if_pos hr]
      rfl
    · exact Takes.peek hnul (by decide) hus (Takes.pure _)
  | a :: as, k + 1, argv, rs, hk, hlen => by
    have htoks : (a :: as).flatMap Arg.tokens ++ us =
        .word a.word :: (a.redirs.flatMap Redir.tokens ++ (as.flatMap Arg.tokens ++ us)) := by
      rw [List.flatMap_cons, List.append_assoc]
      rfl
    rw [htoks, List.length_cons, List.length_append] at hk
    rw [List.length_cons] at hlen
    rw [htoks]
    unfold parseargs
    refine Takes.peek hnul (by decide) (starts_word (by decide) _ _) ?_
    rw [if_neg (by decide)]
    refine Takes.gettoken hnul fun t ht hw => ?_
    have ht : t.tok = letter := ht
    rw [hw a.word rfl, ht, if_neg (by decide), if_neg (not_not.2 rfl), if_neg (by omega), push_wrap]
    have hargc : argv.length + 1 = (argv ++ [a.word]).length := by rw [List.length_append, List.length_singleton]
    have hwrap : ((Cmd.exec (argv ++ [a.word])).wrap rs).wrap a.redirs =
        (Cmd.exec (argv ++ [a.word])).wrap (rs ++ a.redirs) := List.foldl_append.symm
    refine (parseredirs_takes hnul a.redirs k _ ?_ (args_starts hus (by decide))).bind ?_
    · rw [List.length_append]
      omega
    · have hrest := parseargs_takes hnul hus as k (argv ++ [a.word]) (rs ++ a.redirs) (by omega) (by omega)
      rw [List.append_assoc argv, List.append_assoc rs] at hrest
      rw [hargc, hwrap]
      exact hrest

theorem parseback_takes (hnul : (0 : Byte) ∉ str) (hus : starts [amp] us = false) : ∀ (n k : Nat) (cmd : Cmd),
    (List.replicate n Token.amp ++ us).length < k →
    Takes str (parseback str k cmd) (List.replicate n Token.amp ++ us) (cmd.backs n) us
  | _, 0, _, hk => absurd hk (Nat.not_lt_zero _)
  | 0, k + 1, cmd, _ => by
    unfold parseback
    exact Takes.peek hnul (by decide) hus (Takes.pure cmd)
  | n + 1, k + 1, cmd, hk => by
    unfold parseback
    refine Takes.peek hnul (by decide) (d := true) rfl ?_
    rw [if_pos rfl]
    refine Takes.gettoken hnul fun t _ _ => ?_
    exact parseback_takes hnul hus n k (.back cmd) (Nat.lt_of_succ_lt_succ hk)

/-- The procedure for a kind, its fuel beyond four times the tokens, and what may follow. -/
def Kind.parse (str : List Byte) : Kind → Nat → C Cmd
  | .line => parseline str
  | .pipe => parsepipe str
  | .cmd  => parseexec str

def Kind.fuel : Kind → Nat
  | .line => 4
  | .pipe => 3
  | .cmd  => 2

def Kind.follow : Kind → List Byte
  | .line => [rpar]
  | .pipe => [amp, semi, rpar]
  | .cmd  => [bar, rpar, amp, semi]

theorem ends_back {n : Nat} (h : Ends [semi, rpar] us) : Ends [amp, semi, rpar] (List.replicate n Token.amp ++ us) := by
  cases n with
  | zero => exact h.mono (by decide)
  | succ n => exact .inr rfl

/-- **What derives from the grammar is parsed**, to the tree of the derivation. -/
theorem parse_complete (hnul : (0 : Byte) ∉ str) {kd : Kind} {c : Cmd} (h : Derives kd ts c) : ∀ us k, Ends kd.follow us →
    4 * (ts ++ us).length + kd.fuel ≤ k → Takes str (kd.parse str k) (ts ++ us) c us := by
  induction h with
  | @line ts c n hc ih =>
    intro us k hus hk
    obtain ⟨k, rfl⟩ : ∃ j, k = j + 1 := ⟨k - 1, by change _ + 4 ≤ k at hk; omega⟩
    change _ + 4 ≤ _ at hk
    rw [List.append_assoc] at hk ⊢
    change Takes str (parseline str (k + 1)) _ _ _
    unfold parseline
    have hpipe := ih (List.replicate n Token.amp ++ us) k (ends_back (hus.mono (by decide))) (by change _ + 3 ≤ k; omega)
    rw [List.length_append] at hk
    refine hpipe.bind ((parseback_takes hnul (hus.not (by decide)) n k c (by omega)).bind ?_)
    exact Takes.peek hnul (by decide) (hus.not (by decide)) (Takes.pure _)
  | @list ts us c d n hc hd ihc ihd =>
    intro vs k hvs hk
    obtain ⟨k, rfl⟩ : ∃ j, k = j + 1 := ⟨k - 1, by change _ + 4 ≤ k at hk; omega⟩
    change _ + 4 ≤ _ at hk
    rw [List.append_assoc, List.append_assoc] at hk ⊢
    rw [List.cons_append] at hk ⊢
    change Takes str (parseline str (k + 1)) _ _ _
    unfold parseline
    have hpipe := ihc (List.replicate n Token.amp ++ Token.semi :: (us ++ vs)) k (ends_back (.inr rfl))
      (by change _ + 3 ≤ k; omega)
    rw [List.length_append, List.length_append, List.length_cons] at hk
    refine hpipe.bind ((parseback_takes hnul rfl n k c ?_).bind ?_)
    · rw [List.length_append, List.length_cons]
      omega
    · refine Takes.peek hnul (by decide) (d := true) rfl ?_
      rw [if_pos rfl]
      refine Takes.gettoken hnul fun t _ _ => ?_
      exact (ihd vs k hvs (by change _ + 4 ≤ k; omega)).bind (Takes.pure _)
  | @single ts c hc ih =>
    intro us k hus hk
    obtain ⟨k, rfl⟩ : ∃ j, k = j + 1 := ⟨k - 1, by change _ + 3 ≤ k at hk; omega⟩
    change _ + 3 ≤ _ at hk
    change Takes str (parsepipe str (k + 1)) _ _ _
    unfold parsepipe
    refine (ih us k (hus.mono (by decide)) (by change _ + 2 ≤ k; omega)).bind ?_
    exact Takes.peek hnul (by decide) (hus.not (by decide)) (Takes.pure _)
  | @pipe ts us c d hc hd ihc ihd =>
    intro vs k hvs hk
    obtain ⟨k, rfl⟩ : ∃ j, k = j + 1 := ⟨k - 1, by change _ + 3 ≤ k at hk; omega⟩
    change _ + 3 ≤ _ at hk
    rw [List.append_assoc, List.cons_append] at hk ⊢
    change Takes str (parsepipe str (k + 1)) _ _ _
    unfold parsepipe
    refine (ihc (.bar :: (us ++ vs)) k (.inr rfl) (by change _ + 2 ≤ k; omega)).bind ?_
    rw [List.length_append, List.length_cons] at hk
    refine Takes.peek hnul (by decide) (d := true) rfl ?_
    rw [if_pos rfl]
    refine Takes.gettoken hnul fun t _ _ => ?_
    exact (ihd vs k hvs (by change _ + 3 ≤ k; omega)).bind (Takes.pure _)
  | @block ts c rs hc ih =>
    intro us k hus hk
    obtain ⟨k, rfl⟩ : ∃ j, k = j + 2 := ⟨k - 2, by change _ + 2 ≤ k at hk; omega⟩
    change _ + 2 ≤ _ at hk
    rw [List.cons_append, List.append_assoc, List.cons_append] at hk ⊢
    rw [List.length_cons] at hk
    change Takes str (parseexec str (k + 1 + 1)) _ _ _
    unfold parseexec
    refine Takes.peek hnul (by decide) (d := true) rfl ?_
    rw [if_pos rfl]
    unfold parseblock
    refine Takes.peek hnul (by decide) (d := true) rfl ?_
    rw [if_neg (by decide)]
    refine Takes.gettoken hnul fun t _ _ => ?_
    refine (ih (.rpar :: (rs.flatMap Redir.tokens ++ us)) k (.inr rfl) (by change _ + 4 ≤ k; omega)).bind ?_
    refine Takes.peek hnul (by decide) (d := true) rfl ?_
    rw [if_neg (by decide)]
    refine Takes.gettoken hnul fun t _ _ => ?_
    rw [List.length_append, List.length_cons] at hk
    exact parseredirs_takes hnul rs k c (by omega) (hus.not (by decide))
  | exec rs as hlen =>
    intro us k hus hk
    obtain ⟨k, rfl⟩ : ∃ j, k = j + 1 := ⟨k - 1, by change _ + 2 ≤ k at hk; omega⟩
    change _ + 2 ≤ _ at hk
    rw [List.append_assoc] at hk ⊢
    have hlpar : starts [lpar] (rs.flatMap Redir.tokens ++ (as.flatMap Arg.tokens ++ us)) = false := by
      cases rs with
      | nil => exact args_starts hus (by decide)
      | cons r rs =>
        obtain ⟨op, w⟩ := r
        cases op with
        | input => rfl
        | output => rfl
        | append => rfl
    change Takes str (parseexec str (k + 1)) _ _ _
    unfold parseexec
    refine Takes.peek hnul (by decide) hlpar ?_
    rw [if_neg (by decide)]
    rw [List.length_append] at hk
    refine (parseredirs_takes hnul rs k (.exec []) ?_ (args_starts hus (by decide))).bind ?_
    · rw [List.length_append]
      omega
    · refine parseargs_takes hnul hus as k [] rs (by omega) ?_
      rw [List.length_nil, Nat.zero_add]
      exact Nat.lt_of_le_of_lt hlen (by decide)

/-! ## The words of a tree -/

def Cmd.words : Cmd → List Word
  | .exec argv         => argv
  | .redir c file _ _  => c.words ++ [file]
  | .pipe left right   => left.words ++ right.words
  | .list left right   => left.words ++ right.words
  | .back c            => c.words

theorem words_backs : ∀ (n : Nat) (c : Cmd), (c.backs n).words = c.words
  | 0, _     => rfl
  | n + 1, c => words_backs n (.back c)

theorem words_wrap (c : Cmd) (rs : List Redir) : (c.wrap rs).words = c.words ++ rs.map Redir.file := by
  induction rs using List.reverseRecOn with
  | nil => exact (List.append_nil _).symm
  | append_singleton rs r ih =>
    have hr : (Redir.wrap (c.wrap rs) r).words = (c.wrap rs).words ++ [r.file] := by
      unfold Redir.wrap
      split <;> rfl
    rw [wrap_append, hr, ih, List.map_append, List.append_assoc]
    rfl

theorem mem_redirs {rs : List Redir} {w : Word} (h : w ∈ rs.map Redir.file) : Token.word w ∈ rs.flatMap Redir.tokens := by
  obtain ⟨r, hr, rfl⟩ := List.mem_map.1 h
  exact List.mem_flatMap.2 ⟨r, hr, List.mem_cons_of_mem _ List.mem_cons_self⟩

theorem derives_words {kd : Kind} {c : Cmd} (h : Derives kd ts c) : ∀ w ∈ c.words, Token.word w ∈ ts := by
  induction h with
  | line n _ ih =>
    intro w hw
    rw [words_backs] at hw
    exact List.mem_append_left _ (ih w hw)
  | list n _ _ ihc ihd =>
    intro w hw
    change w ∈ (Cmd.backs _ n).words ++ Cmd.words _ at hw
    rw [words_backs] at hw
    rcases List.mem_append.1 hw with hw | hw
    · exact List.mem_append_left _ (ihc w hw)
    · exact List.mem_append_right _ (List.mem_append_right _ (List.mem_cons_of_mem _ (ihd w hw)))
  | single _ ih => exact ih
  | pipe _ _ ihc ihd =>
    intro w hw
    rcases List.mem_append.1 hw with hw | hw
    · exact List.mem_append_left _ (ihc w hw)
    · exact List.mem_append_right _ (List.mem_cons_of_mem _ (ihd w hw))
  | block rs _ ih =>
    intro w hw
    rw [words_wrap] at hw
    refine List.mem_cons_of_mem _ ?_
    rcases List.mem_append.1 hw with hw | hw
    · exact List.mem_append_left _ (ih w hw)
    · exact List.mem_append_right _ (List.mem_cons_of_mem _ (mem_redirs hw))
  | exec rs as _ =>
    intro w hw
    rw [words_wrap, List.map_append] at hw
    rcases List.mem_append.1 hw with hw | hw
    · obtain ⟨a, ha, rfl⟩ := List.mem_map.1 hw
      exact List.mem_append_right _ (List.mem_flatMap.2 ⟨a, ha, List.mem_cons_self⟩)
    · rcases List.mem_append.1 hw with hw | hw
      · exact List.mem_append_left _ (mem_redirs hw)
      · obtain ⟨r, hr, rfl⟩ := List.mem_map.1 hw
        obtain ⟨a, ha, hra⟩ := List.mem_flatMap.1 hr
        refine List.mem_append_right _ (List.mem_flatMap.2 ⟨a, ha, List.mem_cons_of_mem _ ?_⟩)
        exact mem_redirs (List.mem_map_of_mem hra)

theorem foldl_zero (ws : List Word) (mem : Nat → Byte) (p : Nat) :
    ws.foldl (fun m w => zero w.eq m) mem p = if ∃ w ∈ ws, w.eq = p then 0 else mem p := by
  induction ws generalizing mem with
  | nil => exact (if_neg fun ⟨_, hw, _⟩ => List.not_mem_nil hw).symm
  | cons w ws ih =>
    rw [List.foldl_cons, ih]
    unfold zero
    by_cases hws : ∃ v ∈ ws, v.eq = p
    · obtain ⟨v, hv, hp⟩ := hws
      rw [if_pos ⟨v, hv, hp⟩, if_pos ⟨v, List.mem_cons_of_mem w hv, hp⟩]
    · rw [if_neg hws]
      by_cases hp : p = w.eq
      · rw [if_pos hp, if_pos ⟨w, List.mem_cons_self, hp.symm⟩]
      · rw [if_neg hp, if_neg]
        rintro ⟨v, hv, he⟩
        rcases List.mem_cons.1 hv with rfl | hv
        · exact hp he.symm
        · exact hws ⟨v, hv, he⟩

theorem nulterminate_words (cmd : Cmd) (mem : Nat → Byte) :
    nulterminate cmd mem = cmd.words.foldl (fun m w => zero w.eq m) mem := by
  induction cmd generalizing mem with
  | exec argv => rfl
  | redir c file _ _ ih =>
    rw [nulterminate, ih, Cmd.words, List.foldl_append]
    rfl
  | pipe left right ihl ihr => rw [nulterminate, ihl, ihr, Cmd.words, List.foldl_append]
  | list left right ihl ihr => rw [nulterminate, ihl, ihr, Cmd.words, List.foldl_append]
  | back c ih => exact ih mem

/-- The string at `p` is `l`. -/
def IsString (mem : Nat → Byte) (p : Nat) (l : List Byte) : Prop :=
  (∀ i c, l[i]? = some c → mem (p + i) = c ∧ c ≠ 0) ∧ mem (p + l.length) = 0

def Word.bytes (w : Word) (str : List Byte) : List Byte := (str.drop w.q).take (w.eq - w.q)

/-- **Every string of the tree is its word**, once the ends are written: no end is inside another word. -/
theorem nulterminate_string (hnul : (0 : Byte) ∉ str) {cmd : Cmd} (hw : ∀ w ∈ cmd.words, w.Of str) {w : Word}
    (hmem : w ∈ cmd.words) : IsString (nulterminate cmd (memory str)) w.q (w.bytes str) := by
  have hof := hw w hmem
  have hlen : (w.bytes str).length = w.eq - w.q := by
    unfold Word.bytes
    rw [List.length_take, List.length_drop]
    have := hof.le
    omega
  rw [nulterminate_words]
  refine ⟨fun i c hc => ?_, ?_⟩
  · have hi : i < w.eq - w.q := hlen ▸ (List.getElem?_eq_some_iff.1 hc).1
    have hstr : str[w.q + i]? = some c := by
      unfold Word.bytes at hc
      rw [List.getElem?_take_of_lt hi, List.getElem?_drop] at hc
      exact hc
    refine ⟨?_, fun e => hnul (e ▸ List.mem_of_getElem? hstr)⟩
    have hword : isWord c = true := hof.bytes (w.q + i) c (Nat.le_add_right _ _) (by omega) hstr
    rw [foldl_zero, if_neg]
    · unfold memory
      rw [List.getD_eq_getElem?_getD, hstr]
      rfl
    · rintro ⟨v, hv, he⟩
      have hstop := (hw v hv).stop c (he ▸ hstr)
      rw [hstop] at hword
      cases hword
  · have hend : w.q + (w.bytes str).length = w.eq := by
      have := hof.pos
      omega
    rw [hend, foldl_zero, if_pos ⟨w, hmem, rfl⟩]

theorem lex_length : ∀ (n : Nat) (cs : List Byte) (p : Nat), cs.length ≤ n → (lex p cs).length ≤ cs.length
  | _, [], p, _ => by
    rw [lex]
    exact Nat.le_refl _
  | 0, c :: cs, p, hn => absurd hn (Nat.not_succ_le_zero _)
  | n + 1, c :: cs, p, hn => by
    have hlen : cs.length ≤ n := Nat.le_of_succ_le_succ hn
    have htail : cs.tail.length ≤ cs.length := List.length_tail ▸ Nat.sub_le _ _
    rw [lex, List.length_cons]
    split_ifs
    · exact Nat.le_succ_of_le (lex_length n cs (p + 1) hlen)
    · rw [List.length_cons]
      exact Nat.succ_le_succ (Nat.le_trans (lex_length n cs.tail (p + 2) (Nat.le_trans htail hlen)) htail)
    · cases symbol c with
      | some t => exact Nat.succ_le_succ (lex_length n cs (p + 1) hlen)
      | none =>
        have hdrop := List.length_dropWhile_le isWord cs
        exact Nat.succ_le_succ (Nat.le_trans (lex_length n _ _ (Nat.le_trans hdrop hlen)) hdrop)

theorem parsecmd_wpt (hnul : (0 : Byte) ∉ str) :
    wpt (parsecmd str) (fun cmd _ _ => Derives .line (lex 0 str) cmd) Stop.IsPanic 0 := by
  have h : At str (lex 0 str) 0 := ⟨Nat.zero_le _, rfl⟩
  have hlen := lex_length str.length str 0 (Nat.le_refl _)
  unfold parsecmd
  rw [wpt_bind]
  refine ((parse_sound hnul (fuel str)).1 (lex 0 str) (by unfold fuel; omega) 0 h).imp ?_
  rintro cmd p _ ⟨pre, us, hts, hat, hc⟩
  obtain ⟨p', hrun, -, hend⟩ := peek_run hnul hat (List.nil_subset symbols)
  rw [wpt_bind]
  refine Prog.wpt_of_run hrun ?_
  rw [wpt_bind, wpt_get]
  refine Prog.wpt_ite (fun _ => ⟨_, rfl⟩) fun hp => ?_
  rw [wpt_pure, hts, hend.2 (not_not.1 hp), List.append_nil]
  exact hc

theorem parsecmd_complete (hnul : (0 : Byte) ∉ str) {cmd : Cmd} (hc : Derives .line (lex 0 str) cmd) :
    (parsecmd str 0).res = .ok cmd := by
  have h : At str (lex 0 str ++ []) 0 := ⟨Nat.zero_le _, (List.append_nil _).symm⟩
  have hlen := lex_length str.length str 0 (Nat.le_refl _)
  have hfuel : 4 * (lex 0 str ++ []).length + Kind.line.fuel ≤ fuel str := by
    rw [List.append_nil]
    change _ + 4 ≤ 4 * str.length + 4
    omega
  obtain ⟨p, hrun, hat⟩ := parse_complete hnul hc [] (fuel str) (.inl rfl) hfuel 0 h
  obtain ⟨p', hpeek, -, hend⟩ := peek_run hnul hat (List.nil_subset symbols)
  have hrun' : parseline str (fuel str) 0 = ⟨.ok cmd, p, []⟩ := hrun
  unfold parsecmd
  rw [Prog.bind_run_nil hrun', Prog.bind_run_nil hpeek, Prog.get_bind_run, if_neg (not_not.2 (hend.1 rfl))]
  rfl

/-- **The parser accepts the lines that derive from the grammar**, to the tree of the derivation; on all others it panics,
it reads nothing outside the line, and after `nulterminate` every string of the tree is its word. -/
theorem parsecmd_spec (str : List Byte) (hnul : (0 : Byte) ∉ str) :
    (∀ cmd, (parsecmd str 0).res = .ok cmd ↔ Derives .line (lex 0 str) cmd) ∧
    (∀ e, (parsecmd str 0).res = .error e → e.IsPanic) ∧
    ∀ cmd, (parsecmd str 0).res = .ok cmd → ∀ w ∈ cmd.words, w.Of str ∧
      IsString (nulterminate cmd (memory str)) w.q (w.bytes str) := by
  have hsound := parsecmd_wpt hnul
  have hok : ∀ cmd, (parsecmd str 0).res = .ok cmd → Derives .line (lex 0 str) cmd := by
    intro cmd hres
    unfold wpt at hsound
    rw [hres] at hsound
    exact hsound
  refine ⟨fun cmd => ⟨hok cmd, parsecmd_complete hnul⟩, fun e he => ?_, fun cmd hres w hw => ?_⟩
  · unfold wpt at hsound
    rw [he] at hsound
    exact hsound
  · have hof : ∀ v ∈ cmd.words, v.Of str := fun v hv =>
      lex_word str.length str 0 (Nat.le_refl _) rfl v (derives_words (hok cmd hres) v hv)
    exact ⟨hof w hw, nulterminate_string hnul hof hw⟩

/-- `a>b&`. -/
theorem parsecmd_spec_redir : (parsecmd [97, 62, 98, 38] 0).res =
    .ok (.back (.redir (.exec [⟨0, 1⟩]) ⟨2, 3⟩ (wronly ||| create) 1)) ∧
    ∀ w ∈ [(⟨0, 1⟩ : Word), ⟨2, 3⟩], w.Of [97, 62, 98, 38] := by
  have hrun : (parsecmd [97, 62, 98, 38] 0).res =
      .ok (.back (.redir (.exec [⟨0, 1⟩]) ⟨2, 3⟩ (wronly ||| create) 1)) := rfl
  exact ⟨hrun, fun w hw => ((parsecmd_spec [97, 62, 98, 38] (by decide)).2.2 _ hrun w hw).1⟩

end Sh
end Xv6
