import Xv6.Lib.Traced
/-!
# User.Scan — the tokens of a command line (sh.c)

`gettoken` and `peek` move a cursor over the bytes of a line, which end at `es` with a NUL.  What they read is the list of
tokens that `lex` splits the line into.
-/
namespace Xv6
namespace Sh

abbrev Byte := BitVec 8

def whitespace : List Byte := [32, 9, 13, 10, 11]

def bar  : Byte := 124
def amp  : Byte := 38
def semi : Byte := 59
def lpar : Byte := 40
def rpar : Byte := 41
def lt   : Byte := 60
def gt   : Byte := 62
/-- `'+'`, which `gettoken` returns for `>>`. -/
def plus : Byte := 43
/-- `'a'`, which it returns for a word. -/
def letter : Byte := 97

def symbols : List Byte := [lt, bar, gt, amp, semi, lpar, rpar]

inductive Stop where
  | panic (msg : String)
  /-- A read outside the string. -/
  | outside
  /-- A loop or a recursion does not end. -/
  | stuck

/-- The state is the cursor `*ps`. -/
abbrev C := Prog Stop Nat Empty

variable (str : List Byte)

/-- `*s`. -/
def deref (s : Nat) : C Byte :=
  match str[s]? with
  | some c => pure c
  | none   => if s = str.length then pure 0 else Prog.stop .outside

/-- The loop over white space, with `k` bytes up to `es`. -/
def spaces : Nat → Nat → C Nat
  | 0, s     => pure s
  | k + 1, s => do
    let c ← deref str s
    if c ∈ whitespace then spaces k (s + 1) else pure s

def word : Nat → Nat → C Nat
  | 0, s     => pure s
  | k + 1, s => do
    let c ← deref str s
    if c ∉ whitespace ∧ c ∉ symbols then word k (s + 1) else pure s

/-- What `gettoken` returns, with `*q` and `*eq`. -/
structure Lexeme where
  tok : Byte
  q   : Nat
  eq  : Nat

/-- The switch of `gettoken`. -/
def scanToken (s : Nat) : C Lexeme := do
  let c ← deref str s
  if c = 0 then pure ⟨0, s, s⟩
  else if c ∈ [bar, lpar, rpar, semi, amp, lt] then pure ⟨c, s, s + 1⟩
  else if c = gt then do
    let d ← deref str (s + 1)
    pure (if d = gt then ⟨plus, s, s + 2⟩ else ⟨gt, s, s + 1⟩)
  else do
    let e ← word str (str.length - s) s
    pure ⟨letter, s, e⟩

def gettoken : C Lexeme := do
  let p ← Prog.get
  let s ← spaces str (str.length - p) p
  let t ← scanToken str s
  let s ← spaces str (str.length - t.eq) t.eq
  Prog.modify (fun _ => s)
  pure t

def peek (toks : List Byte) : C Bool := do
  let p ← Prog.get
  let s ← spaces str (str.length - p) p
  Prog.modify (fun _ => s)
  let c ← deref str s
  pure (decide (c ≠ 0 ∧ c ∈ toks))

/-! ## Tokens -/

structure Word where
  q  : Nat
  eq : Nat
deriving DecidableEq

inductive Token where
  | lt
  | gt
  | append
  | bar
  | amp
  | semi
  | lpar
  | rpar
  | word (w : Word)
deriving DecidableEq

def symbol (c : Byte) : Option Token :=
  if c = lt then some .lt
  else if c = gt then some .gt
  else if c = bar then some .bar
  else if c = amp then some .amp
  else if c = semi then some .semi
  else if c = lpar then some .lpar
  else if c = rpar then some .rpar
  else none

def isWord (c : Byte) : Bool := decide (c ∉ whitespace ∧ c ∉ symbols)

/-- The tokens of a line whose first byte is at `p`: `>>` before `>`, and words as long as can be. -/
def lex (p : Nat) : List Byte → List Token
  | []      => []
  | c :: cs =>
    if c ∈ whitespace then lex (p + 1) cs
    else if c = gt ∧ cs.head? = some gt then .append :: lex (p + 2) cs.tail
    else
      match symbol c with
      | some t => t :: lex (p + 1) cs
      | none   =>
        .word ⟨p, p + 1 + (cs.takeWhile isWord).length⟩ ::
          lex (p + 1 + (cs.takeWhile isWord).length) (cs.dropWhile isWord)
termination_by l => l.length
decreasing_by
  · exact Nat.lt_succ_self _
  · exact Nat.lt_succ_of_le (List.length_tail ▸ Nat.sub_le _ _)
  · exact Nat.lt_succ_self _
  · exact Nat.lt_succ_of_le (List.length_dropWhile_le _ _)

/-- What `gettoken` returns for a token. -/
def Token.ret : Token → Byte
  | .lt     => Sh.lt
  | .gt     => Sh.gt
  | .append => plus
  | .bar    => Sh.bar
  | .amp    => Sh.amp
  | .semi   => Sh.semi
  | .lpar   => Sh.lpar
  | .rpar   => Sh.rpar
  | .word _ => letter

/-- What `peek` sees of a token. -/
def Token.lead : Token → Byte
  | .append => Sh.gt
  | t       => t.ret

/-- The tokens from `p` on. -/
structure At (ts : List Token) (p : Nat) : Prop where
  le  : p ≤ str.length
  lex : lex p (str.drop p) = ts

variable {str} {ts : List Token} {p s : Nat} {c : Byte} {cs : List Byte} {x : Token}

theorem deref_some (h : str[s]? = some c) (t : Nat) : deref str s t = ⟨.ok c, t, []⟩ := by
  unfold deref
  rw [h]
  rfl

theorem deref_end (t : Nat) : deref str str.length t = ⟨.ok 0, t, []⟩ := by
  unfold deref
  rw [List.getElem?_eq_none (Nat.le_refl _), if_pos rfl]
  rfl

theorem At.cases (h : At str ts p) :
    p = str.length ∧ ts = [] ∨ ∃ c cs, str[p]? = some c ∧ str.drop p = c :: cs ∧ cs = str.drop (p + 1) := by
  rcases Nat.lt_or_eq_of_le h.le with hlt | rfl
  · exact .inr ⟨str[p], str.drop (p + 1), List.getElem?_eq_getElem hlt, List.drop_eq_getElem_cons hlt, rfl⟩
  · refine .inl ⟨rfl, ?_⟩
    rw [← h.lex, List.drop_length, Sh.lex]

theorem lex_space (hc : c ∈ whitespace) : lex p (c :: cs) = lex (p + 1) cs := by
  rw [lex, if_pos hc]

theorem spaces_run : ∀ (k p : Nat), p + k = str.length → At str ts p → ∃ s, (∀ t, spaces str k p t = ⟨.ok s, t, []⟩) ∧
    At str ts s ∧ ∀ c, str[s]? = some c → c ∉ whitespace
  | 0, p, hk, h => by
    refine ⟨p, fun _ => rfl, h, fun c hc => ?_⟩
    have hp : p = str.length := hk
    rw [hp, List.getElem?_eq_none (Nat.le_refl _)] at hc
    cases hc
  | k + 1, p, hk, h => by
    rcases h.cases with ⟨hp, -⟩ | ⟨c, cs, hc, hdrop, hcs⟩
    · omega
    by_cases hspace : c ∈ whitespace
    · have hnext : At str ts (p + 1) := by
        refine ⟨by omega, ?_⟩
        rw [← hcs, ← h.lex, hdrop, lex_space hspace]
      obtain ⟨s, hs, hat, hno⟩ := spaces_run k (p + 1) (by omega) hnext
      refine ⟨s, fun t => ?_, hat, hno⟩
      unfold spaces
      rw [Prog.bind_run_nil (deref_some hc t), if_pos hspace]
      exact hs t
    · refine ⟨p, fun t => ?_, h, fun d hd => ?_⟩
      · unfold spaces
        rw [Prog.bind_run_nil (deref_some hc t), if_neg hspace]
        rfl
      · rw [hc] at hd
        exact Option.some.inj hd ▸ hspace

theorem word_run : ∀ (k s : Nat), s + k = str.length → ∀ t,
    word str k s t = ⟨.ok (s + ((str.drop s).takeWhile isWord).length), t, []⟩
  | 0, s, hk, t => by
    have hs : s = str.length := hk
    rw [hs, List.drop_length]
    rfl
  | k + 1, s, hk, t => by
    have hlt : s < str.length := by omega
    have hc : str[s]? = some str[s] := List.getElem?_eq_getElem hlt
    unfold word
    rw [Prog.bind_run_nil (deref_some hc t), List.drop_eq_getElem_cons hlt]
    by_cases hw : str[s] ∉ whitespace ∧ str[s] ∉ symbols
    · have hw' : isWord str[s] = true := decide_eq_true hw
      rw [if_pos hw, word_run k (s + 1) (by omega), List.takeWhile_cons_of_pos hw', List.length_cons]
      congr 2
      omega
    · have hw' : ¬ isWord str[s] = true := fun h => hw (of_decide_eq_true h)
      rw [if_neg hw, List.takeWhile_cons_of_neg hw']
      rfl

theorem symbol_some (h : symbol c = some x) : (c = gt ∧ x = .gt) ∨
    c ∈ [bar, lpar, rpar, semi, amp, lt] ∧ x.ret = c ∧ x.lead = c ∧ ∀ w, x ≠ .word w := by
  unfold symbol at h
  split_ifs at h with h1 h2 h3 h4 h5 h6 h7
  · cases h
    exact .inr ⟨by rw [h1]; decide, h1.symm, h1.symm, fun _ e => by cases e⟩
  · cases h
    exact .inl ⟨h2, rfl⟩
  · cases h
    exact .inr ⟨by rw [h3]; decide, h3.symm, h3.symm, fun _ e => by cases e⟩
  · cases h
    exact .inr ⟨by rw [h4]; decide, h4.symm, h4.symm, fun _ e => by cases e⟩
  · cases h
    exact .inr ⟨by rw [h5]; decide, h5.symm, h5.symm, fun _ e => by cases e⟩
  · cases h
    exact .inr ⟨by rw [h6]; decide, h6.symm, h6.symm, fun _ e => by cases e⟩
  · cases h
    exact .inr ⟨by rw [h7]; decide, h7.symm, h7.symm, fun _ e => by cases e⟩

theorem symbol_none (h : symbol c = none) : c ∉ symbols := by
  unfold symbol at h
  split_ifs at h with h1 h2 h3 h4 h5 h6 h7
  unfold symbols
  simp only [List.mem_cons, List.not_mem_nil, or_false, not_or]
  exact ⟨h1, h3, h2, h4, h5, h6, h7⟩

theorem drop_takeWhile {f : Byte → Bool} (l : List Byte) : l.drop (l.takeWhile f).length = l.dropWhile f := by
  have h := congrArg (List.drop (l.takeWhile f).length) (List.takeWhile_append_dropWhile (p := f) (l := l))
  rw [List.drop_left] at h
  exact h.symm

/-- **The switch of `gettoken` reads the next token**; at the end it returns 0. -/
theorem scanToken_run (hnul : (0 : Byte) ∉ str) (h : At str ts s) (hno : ∀ c, str[s]? = some c → c ∉ whitespace) :
    (ts = [] → ∀ t, scanToken str s t = ⟨.ok ⟨0, s, s⟩, t, []⟩) ∧ ∀ x xs, ts = x :: xs → ∃ r : Lexeme,
      (∀ t, scanToken str s t = ⟨.ok r, t, []⟩) ∧ r.tok = x.ret ∧ (∀ w, x = .word w → (⟨r.q, r.eq⟩ : Word) = w) ∧
        At str xs r.eq := by
  rcases h.cases with ⟨rfl, rfl⟩ | ⟨c, cs, hc, hdrop, hcs⟩
  · refine ⟨fun _ t => ?_, fun x xs e => by cases e⟩
    unfold scanToken
    rw [Prog.bind_run_nil (deref_end t), if_pos rfl]
    rfl
  have hspace := hno c hc
  have hc0 : c ≠ 0 := fun e => hnul (e ▸ List.mem_of_getElem? hc)
  have hlt : s < str.length := (List.getElem?_eq_some_iff.1 hc).1
  have hlex := h.lex
  rw [hdrop, lex, if_neg hspace] at hlex
  by_cases hgt : c = gt ∧ cs.head? = some gt
  · -- `>>`
    rw [if_pos hgt] at hlex
    obtain ⟨rfl, hhead⟩ := hgt
    have hnext : str[s + 1]? = some gt := by
      rw [hcs, List.head?_drop] at hhead
      exact hhead
    refine ⟨fun e => absurd (hlex.trans e) (List.cons_ne_nil _ _), fun x xs e =>
      ⟨⟨plus, s, s + 2⟩, fun t => ?_, ?_, ?_, ?_, ?_⟩⟩
    · unfold scanToken
      rw [Prog.bind_run_nil (deref_some hc t), if_neg hc0, if_neg (by decide), if_pos rfl,
        Prog.bind_run_nil (deref_some hnext t), if_pos rfl]
      rfl
    · rw [e] at hlex
      cases hlex
      rfl
    · rw [e] at hlex
      rintro w rfl
      cases hlex
    · exact (List.getElem?_eq_some_iff.1 hnext).1
    · rw [e] at hlex
      cases hlex
      rw [hcs, List.tail_drop]
  · rw [if_neg hgt] at hlex
    cases hsym : symbol c with
    | some y =>
      rw [hsym] at hlex
      have hat : At str (lex (s + 1) cs) (s + 1) := ⟨hlt, by rw [hcs]⟩
      refine ⟨fun e => absurd (hlex.trans e) (List.cons_ne_nil _ _), fun x xs e => ?_⟩
      rw [e] at hlex
      cases hlex
      rcases symbol_some hsym with ⟨rfl, rfl⟩ | ⟨hmem, hret, -, hword⟩
      · obtain ⟨d, hd, hne⟩ : ∃ d, (∀ t, deref str (s + 1) t = ⟨.ok d, t, []⟩) ∧ d ≠ gt := by
          rcases hat.cases with ⟨he, -⟩ | ⟨d, ds, hd, -, -⟩
          · exact ⟨0, fun t => he ▸ deref_end t, by decide⟩
          · refine ⟨d, deref_some hd, fun e => hgt ⟨rfl, ?_⟩⟩
            rw [hcs, List.head?_drop, hd, e]
        refine ⟨⟨gt, s, s + 1⟩, fun t => ?_, rfl, fun w e => (nomatch e), hat⟩
        unfold scanToken
        rw [Prog.bind_run_nil (deref_some hc t), if_neg hc0, if_neg (by decide), if_pos rfl,
          Prog.bind_run_nil (hd t), if_neg hne]
        rfl
      · refine ⟨⟨c, s, s + 1⟩, fun t => ?_, hret.symm, fun w e => absurd e (hword w), hat⟩
        unfold scanToken
        rw [Prog.bind_run_nil (deref_some hc t), if_neg hc0, if_pos hmem]
        rfl
    | none =>
      rw [hsym] at hlex
      have hns := symbol_none hsym
      have hword : isWord c = true := decide_eq_true ⟨hspace, hns⟩
      have hlen : s + ((str.drop s).takeWhile isWord).length = s + 1 + (cs.takeWhile isWord).length := by
        rw [hdrop, List.takeWhile_cons_of_pos hword, List.length_cons]
        omega
      have hle : (cs.takeWhile isWord).length ≤ cs.length := (List.takeWhile_prefix isWord).length_le
      have hcsl : cs.length = str.length - (s + 1) := by rw [hcs, List.length_drop]
      have hgt' : c ≠ gt := fun e => hns (e ▸ by decide)
      have hmem' : c ∉ [bar, lpar, rpar, semi, amp, lt] := by
        intro hm
        refine hns ?_
        unfold symbols
        simp only [List.mem_cons, List.not_mem_nil, or_false] at hm ⊢
        tauto
      refine ⟨fun e => absurd (hlex.trans e) (List.cons_ne_nil _ _), fun x xs e => ?_⟩
      rw [e] at hlex
      cases hlex
      refine ⟨⟨letter, s, s + 1 + (cs.takeWhile isWord).length⟩, fun t => ?_, rfl, fun w e => ?_, ?_, ?_⟩
      · unfold scanToken
        rw [Prog.bind_run_nil (deref_some hc t), if_neg hc0, if_neg hmem', if_neg hgt',
          Prog.bind_run_nil (word_run _ s (by omega) t), hlen]
        rfl
      · cases e
        rfl
      · change s + 1 + _ ≤ _
        omega
      · rw [← drop_takeWhile cs, hcs, List.drop_drop]

/-- **`gettoken` takes the next token.** -/
theorem gettoken_run (hnul : (0 : Byte) ∉ str) (h : At str ts p) :
    (ts = [] → ∃ r p', gettoken str p = ⟨.ok r, p', []⟩ ∧ r.tok = 0 ∧ At str [] p') ∧ ∀ x xs, ts = x :: xs →
      ∃ r p', gettoken str p = ⟨.ok r, p', []⟩ ∧ r.tok = x.ret ∧ (∀ w, x = .word w → (⟨r.q, r.eq⟩ : Word) = w) ∧
        At str xs p' := by
  obtain ⟨s, hs, hat, hno⟩ := spaces_run (str.length - p) p (Nat.add_sub_cancel' h.le) h
  obtain ⟨hnil, hcons⟩ := scanToken_run hnul hat hno
  have hrun : ∀ r : Lexeme, (∀ t, scanToken str s t = ⟨.ok r, t, []⟩) → ∀ s',
      (∀ t, spaces str (str.length - r.eq) r.eq t = ⟨.ok s', t, []⟩) → gettoken str p = ⟨.ok r, s', []⟩ := by
    intro r hr s' hs'
    unfold gettoken
    rw [Prog.get_bind_run, Prog.bind_run_nil (hs p), Prog.bind_run_nil (hr p), Prog.bind_run_nil (hs' p)]
    rfl
  refine ⟨fun hts => ?_, fun x xs hts => ?_⟩
  · obtain ⟨s', hs', hat', -⟩ := spaces_run (str.length - s) s (Nat.add_sub_cancel' hat.le) hat
    exact ⟨_, s', hrun _ (hnil hts) s' hs', rfl, hts ▸ hat'⟩
  · obtain ⟨r, hr, htok, hword, hat'⟩ := hcons x xs hts
    obtain ⟨s', hs', hat'', -⟩ := spaces_run (str.length - r.eq) r.eq (Nat.add_sub_cancel' hat'.le) hat'
    exact ⟨r, s', hrun r hr s' hs', htok, hword, hat''⟩

/-- The next token begins with one of `toks`. -/
def starts (toks : List Byte) : List Token → Bool
  | []     => false
  | x :: _ => decide (x.lead ∈ toks)

theorem At.head (h : At str ts s) (hno : ∀ c, str[s]? = some c → c ∉ whitespace) :
    s = str.length ∧ ts = [] ∨ ∃ c x xs, str[s]? = some c ∧ ts = x :: xs ∧
      (x.lead = c ∨ x.lead = letter ∧ c ∉ symbols) := by
  rcases h.cases with hend | ⟨c, cs, hc, hdrop, -⟩
  · exact .inl hend
  have hlex := h.lex
  rw [hdrop, Sh.lex, if_neg (hno c hc)] at hlex
  by_cases hgt : c = gt ∧ cs.head? = some gt
  · rw [if_pos hgt] at hlex
    exact .inr ⟨c, _, _, hc, hlex.symm, .inl hgt.1.symm⟩
  · rw [if_neg hgt] at hlex
    cases hsym : symbol c with
    | some y =>
      rw [hsym] at hlex
      refine .inr ⟨c, y, _, hc, hlex.symm, .inl ?_⟩
      rcases symbol_some hsym with ⟨rfl, rfl⟩ | ⟨-, -, hlead, -⟩
      · rfl
      · exact hlead
    | none =>
      rw [hsym] at hlex
      exact .inr ⟨c, _, _, hc, hlex.symm, .inr ⟨rfl, symbol_none hsym⟩⟩

/-- **`peek` tells how the next token begins**, and moves to it. -/
theorem peek_run (hnul : (0 : Byte) ∉ str) (h : At str ts p) {toks : List Byte} (htoks : toks ⊆ symbols) :
    ∃ p', peek str toks p = ⟨.ok (starts toks ts), p', []⟩ ∧ At str ts p' ∧ (ts = [] ↔ p' = str.length) := by
  obtain ⟨s, hs, hat, hno⟩ := spaces_run (str.length - p) p (Nat.add_sub_cancel' h.le) h
  have hrun : ∀ c, (∀ t, deref str s t = ⟨.ok c, t, []⟩) → peek str toks p = ⟨.ok (decide (c ≠ 0 ∧ c ∈ toks)), s, []⟩ := by
    intro c hc
    unfold peek
    rw [Prog.get_bind_run, Prog.bind_run_nil (hs p), Prog.modify_bind_run, Prog.bind_run_nil (hc s)]
    rfl
  refine ⟨s, ?_, hat, ?_⟩
  · rcases hat.head hno with ⟨rfl, rfl⟩ | ⟨c, x, xs, hc, rfl, hx⟩
    · exact hrun 0 deref_end
    · rw [hrun c (deref_some hc)]
      have hc0 : c ≠ 0 := fun e => hnul (e ▸ List.mem_of_getElem? hc)
      have hmem : (c ≠ 0 ∧ c ∈ toks) ↔ x.lead ∈ toks := by
        rcases hx with hx | ⟨hx, hcs⟩
        · rw [hx]
          exact and_iff_right hc0
        · rw [hx]
          exact ⟨fun h => absurd (htoks h.2) hcs, fun h => absurd (htoks h) (by decide)⟩
      exact congrArg (fun b : Bool => (⟨.ok b, s, []⟩ : Outcome Stop Nat Empty Bool)) (decide_eq_decide.2 hmem)
  · rcases hat.head hno with ⟨rfl, rfl⟩ | ⟨c, x, xs, hc, rfl, -⟩
    · exact iff_of_true rfl rfl
    · refine iff_of_false (List.cons_ne_nil x xs) fun e => ?_
      rw [e, List.getElem?_eq_none (Nat.le_refl _)] at hc
      cases hc

/-! ## Words -/

/-- A word is a run of bytes that are neither white space nor symbols, and ends where it has to. -/
structure Word.Of (str : List Byte) (w : Word) : Prop where
  pos   : w.q < w.eq
  le    : w.eq ≤ str.length
  bytes : ∀ i c, w.q ≤ i → i < w.eq → str[i]? = some c → isWord c = true
  stop  : ∀ c, str[w.eq]? = some c → isWord c = false

theorem head_dropWhile {f : Byte → Bool} : ∀ {l : List Byte}, (l.dropWhile f).head? = some c → f c = false
  | [], h     => by cases h
  | a :: l, h => by
    by_cases ha : f a = true
    · rw [List.dropWhile_cons_of_pos ha] at h
      exact head_dropWhile h
    · rw [List.dropWhile_cons_of_neg ha] at h
      cases h
      exact Bool.eq_false_iff.2 ha

theorem lex_word : ∀ (n : Nat) (cs : List Byte) (p : Nat), cs.length ≤ n → cs = str.drop p →
    ∀ w, Token.word w ∈ lex p cs → w.Of str
  | _, [], p, _, _, w, hw => by
    rw [lex] at hw
    cases hw
  | 0, c :: cs, p, hn, _, _, _ => absurd hn (Nat.not_succ_le_zero _)
  | n + 1, c :: cs, p, hn, hcs, w, hw => by
    have hlen : cs.length ≤ n := Nat.le_of_succ_le_succ hn
    have hnext : cs = str.drop (p + 1) := by
      rw [← List.drop_drop, ← hcs]
      rfl
    have hc : str[p]? = some c := by
      rw [← List.head?_drop, ← hcs]
      rfl
    have hlt : p < str.length := (List.getElem?_eq_some_iff.1 hc).1
    rw [lex] at hw
    split_ifs at hw with hspace hgt
    · exact lex_word n cs (p + 1) hlen hnext w hw
    · have htail : cs.tail = str.drop (p + 2) := by rw [hnext, List.tail_drop]
      have htlen : cs.tail.length ≤ n := Nat.le_trans (List.length_tail ▸ Nat.sub_le _ _) hlen
      exact lex_word n cs.tail (p + 2) htlen htail w ((List.mem_cons.1 hw).resolve_left fun e => by cases e)
    · cases hsym : symbol c with
      | some y =>
        rw [hsym] at hw
        refine lex_word n cs (p + 1) hlen hnext w ((List.mem_cons.1 hw).resolve_left fun e => ?_)
        rcases symbol_some hsym with ⟨-, rfl⟩ | ⟨-, -, -, hno⟩
        · cases e
        · exact hno w e.symm
      | none =>
        rw [hsym] at hw
        have hword : isWord c = true := decide_eq_true ⟨hspace, symbol_none hsym⟩
        have hdrop : cs.dropWhile isWord = str.drop (p + 1 + (cs.takeWhile isWord).length) := by
          rw [← drop_takeWhile cs, ← List.drop_drop, ← hnext]
        have hle : (cs.takeWhile isWord).length ≤ cs.length := (List.takeWhile_prefix isWord).length_le
        have hcsl : cs.length = str.length - (p + 1) := by rw [hnext, List.length_drop]
        rcases List.mem_cons.1 hw with he | hw
        · cases he
          refine ⟨?_, ?_, fun i d hi hi' hd => ?_, fun d hd => ?_⟩
          · change p < p + 1 + _
            omega
          · change p + 1 + _ ≤ _
            omega
          · change p ≤ i at hi
            change i < p + 1 + _ at hi'
            rcases Nat.eq_or_lt_of_le hi with rfl | hlt'
            · rw [hc] at hd
              exact Option.some.inj hd ▸ hword
            · have happ : (cs.takeWhile isWord ++ cs.dropWhile isWord)[i - (p + 1)]? = some d := by
                rw [List.takeWhile_append_dropWhile, hnext, List.getElem?_drop, Nat.add_sub_cancel' hlt']
                exact hd
              rw [List.getElem?_append_left (by omega)] at happ
              exact List.mem_takeWhile_imp (List.mem_of_getElem? happ)
          · refine head_dropWhile (l := cs) ?_
            rw [hdrop, List.head?_drop]
            exact hd
        · exact lex_word n _ _ (Nat.le_trans (List.length_dropWhile_le _ _) hlen) hdrop w hw

end Sh
end Xv6
