import Mathlib.Data.List.Chain
import UntypedLambda.Proofs.PrintedForm

/-!
# The printed form has the fewest parentheses

The grammar lets an abstraction stand at the end of an application without parentheses, as in
`x λy. y`. The printed form never has that, and among the forms of an expression that do not have it
either, no other has fewer parentheses (`render_has_fewest_parentheses`).

That every abstraction is the first token or follows a parenthesis or a dot is a condition on
neighbours (`LambdasLead`). So it passes to the parts of a derivation, where it forbids exactly one
rule of the grammar: behind an atom no abstraction begins (`Follows.of_atom`). The other rules
are compared with what is printed, one by one (`Derives.parens_le`). A group has one parenthesis
more than its inside, and so much the printed form of the inside may have more as an operand
(`parens_operand_le`); an operator is printed with no more than an operand (`parens_operator_le`),
so the atom at the front of an application is enough for it.
-/

namespace UntypedLambda

namespace Expr

open Token

/-! ### Where abstractions begin -/

/-- Every abstraction begins the list, or right behind an opening parenthesis or a dot. -/
def LambdasLead (ts : List Token) : Prop :=
  ts.IsChain fun t u ↦ u = lambda → t = openParen ∨ t = dot

instance (ts : List Token) : Decidable (LambdasLead ts) :=
  inferInstanceAs (Decidable (ts.IsChain _))

/-- Abstractions begin in such places also if a name stands in front of the list. -/
structure Follows (ts : List Token) : Prop where
  leads : LambdasLead ts
  head?_ne : ts.head? ≠ some lambda

theorem follows_nil : Follows [] := ⟨List.isChain_nil, by simp⟩

theorem Follows.leads_cons {ts : List Token} (h : Follows ts) (t : Token) :
    LambdasLead (t :: ts) := by
  refine List.IsChain.cons h.leads fun u hu hlambda ↦ ?_
  exact absurd (hlambda ▸ hu) h.head?_ne

theorem Follows.cons {ts : List Token} (h : Follows ts) {t : Token} (ht : t ≠ lambda) :
    Follows (t :: ts) :=
  ⟨h.leads_cons t, by simpa using ht⟩

theorem LambdasLead.group {ts : List Token} (h : LambdasLead ts) : Follows (openParen :: ts) :=
  ⟨List.IsChain.cons h fun _ _ _ ↦ .inl rfl, by simp⟩

/-- An atom ends in a name or in a closing parenthesis. -/
theorem Derives.getLast?_atom {ts : List Token} {a : Expr} (h : Derives ts (.atom a)) :
    ∃ t, ts.getLast? = some t ∧ t ≠ openParen ∧ t ≠ dot := by
  cases h with
  | ident x => exact ⟨Token.ident x, rfl, by simp, by simp⟩
  | @group ts e h => exact ⟨closeParen, List.getLast?_concat, by simp, by simp⟩

/-- Behind an atom no abstraction begins. -/
theorem Follows.of_atom {ts us : List Token} {a : Expr} (h : LambdasLead (ts ++ us))
    (ha : Derives ts (.atom a)) : Follows us := by
  refine ⟨h.right_of_append, fun hhead ↦ ?_⟩
  obtain ⟨t, hlast, hopen, hdot⟩ := ha.getLast?_atom
  have hjoin := (List.isChain_append.1 h).2.2 t hlast lambda hhead rfl
  exact hjoin.elim hopen hdot

/-! ### The parentheses of what is printed -/

/-- The number of opening parentheses that an expression is printed with at a place. -/
def parens (e : Expr) (place : Place) : Nat := (e.emit place []).count openParen

theorem count_emit (e : Expr) (place : Place) (k : List Token) :
    (e.emit place k).count openParen = e.parens place + k.count openParen := by
  rw [parens, ← List.count_append, ← emit_append, List.nil_append]

theorem count_emitGroup (e : Expr) :
    (e.emitGroup []).count openParen = e.parens .whole + 1 := by
  rw [emitGroup, List.count_cons_self, count_emit]
  rfl

theorem parens_app (f a : Expr) :
    (app f a).parens .operator = f.parens .operator + a.parens .operand := by
  show (f.emit .operator (a.emit .operand [])).count openParen = _
  rw [count_emit]
  rfl

theorem parens_head (e : Expr) : e.parens .head = e.parens .whole := by
  cases e <;> simp [parens, emit]

/-- A head with many names is printed without a parenthesis. -/
theorem parens_lams (xs : List Name) (body : Expr) :
    (lams xs body).parens .whole = body.parens .whole := by
  induction xs with
  | nil => rfl
  | cons x xs ih =>
    rw [← ih, ← parens_head (lams xs body), lams_cons]
    simp [parens, emit]

theorem parens_whole_le (e : Expr) : e.parens .whole ≤ e.parens .operator := by
  cases e with
  | lam x body =>
    show (lam x body).parens .whole ≤ ((lam x body).emitGroup []).count openParen
    rw [count_emitGroup]
    exact Nat.le_succ _
  | _ => exact Nat.le_refl _

theorem parens_operator_le (e : Expr) : e.parens .operator ≤ e.parens .operand := by
  cases e with
  | app f a =>
    show (app f a).parens .whole ≤ ((app f a).emitGroup []).count openParen
    rw [count_emitGroup]
    exact Nat.le_succ _
  | _ => exact Nat.le_refl _

theorem parens_operand_le (e : Expr) : e.parens .operand ≤ e.parens .whole + 1 := by
  cases e with
  | var x => exact Nat.zero_le _
  | lam x body => exact (count_emitGroup (lam x body)).le
  | app f a => exact (count_emitGroup (app f a)).le

/-- The number of opening parentheses that operands are printed with. -/
def operandParens : List Expr → Nat
  | [] => 0
  | a :: as => a.parens .operand + operandParens as

/-- Each operand is printed as it is on its own, whatever it is applied to. -/
theorem parens_foldl_app (as : List Expr) (f : Expr) :
    (as.foldl app f).parens .operator = f.parens .operator + operandParens as := by
  induction as generalizing f with
  | nil => rfl
  | cons a as ih => rw [List.foldl_cons, ih, parens_app, operandParens, Nat.add_assoc]

/-! ### No derivation has fewer -/

/-- The number of opening parentheses that a phrase is printed with. -/
def Phrase.parens : Phrase → Nat
  | expr e => e.parens .whole
  | atom a => a.parens .operand
  | tail as => operandParens as

/-- The condition on the tokens of a phrase. Those of a tail stand behind an atom. -/
def Phrase.LambdasLead (ts : List Token) : Phrase → Prop
  | tail _ => Follows ts
  | _ => Expr.LambdasLead ts

theorem count_abstraction (xs : List Name) (ts : List Token) :
    (lambda :: xs.map ident ++ dot :: ts).count openParen = ts.count openParen := by
  have hnames : (xs.map ident).count openParen = 0 := List.count_eq_zero.2 (by simp)
  simp [hnames]

/-- What a phrase is derived from has no fewer parentheses than the phrase is printed with. By
induction on the derivation, one case for each rule of the grammar. -/
theorem Derives.parens_le {ts : List Token} {p : Phrase} (h : Derives ts p)
    (hlead : p.LambdasLead ts) : p.parens ≤ ts.count openParen := by
  induction h with
  | @abstraction xs ts body hxs h ih =>
    have hlead : LambdasLead ((lambda :: xs.map Token.ident) ++ dot :: ts) := hlead
    rw [count_abstraction, Phrase.parens, parens_lams]
    exact ih (List.IsChain.tail hlead.right_of_append)
  | @application ts us f as hf has ihf ihas =>
    have hlead : LambdasLead (ts ++ us) := hlead
    have hatom : f.parens .operand ≤ ts.count openParen := ihf hlead.left_of_append
    have htail : operandParens as ≤ us.count openParen := ihas (.of_atom hlead hf)
    calc (as.foldl app f).parens .whole
        ≤ (as.foldl app f).parens .operator := parens_whole_le _
      _ = f.parens .operator + operandParens as := parens_foldl_app as f
      _ ≤ f.parens .operand + operandParens as := Nat.add_le_add_right (parens_operator_le f) _
      _ ≤ ts.count openParen + us.count openParen := Nat.add_le_add hatom htail
      _ = (ts ++ us).count openParen := List.count_append.symm
  | tailNil => exact Nat.zero_le _
  | @tailCons ts us a as ha has iha ihas =>
    have hlead : LambdasLead (ts ++ us) := hlead.leads
    rw [Phrase.parens, operandParens, List.count_append]
    exact Nat.add_le_add (iha hlead.left_of_append) (ihas (.of_atom hlead ha))
  | tailAbstraction hxs h ih => exact absurd rfl hlead.head?_ne  -- the rule that is forbidden
  | ident x => exact Nat.zero_le _
  | @group ts e h ih =>
    have hinside : LambdasLead ts := (List.IsChain.tail hlead).left_of_append
    have hcount : (openParen :: ts ++ [closeParen]).count openParen = ts.count openParen + 1 := by
      simp
    rw [hcount]
    exact (parens_operand_le e).trans (Nat.succ_le_succ (ih hinside))

/-! ### The printed form is such a form -/

/-- Except for a whole expression, no expression is printed with an abstraction at its start. -/
theorem follows_emit {place : Place} (hplace : place ≠ .whole) (e : Expr) {k : List Token}
    (hk : Follows k) : Follows (e.emit place k) := by
  induction e generalizing place k with
  | var x =>
    have hvar : Follows (ident x :: k) := hk.cons (by simp)
    cases place with
    | head => exact hvar.cons (by simp)
    | _ => exact hvar
  | lam x body ih =>
    have hnames {k : List Token} (hk : Follows k) : Follows (ident x :: body.emit .head k) :=
      (ih (by simp) hk).cons (by simp)
    cases place with
    | whole => exact absurd rfl hplace
    | head => exact hnames hk
    | _ => exact ((hnames (hk.cons (by simp))).leads_cons lambda).group
  | app f a ihf iha =>
    have hspine {k : List Token} (hk : Follows k) :
        Follows (f.emit .operator (a.emit .operand k)) :=
      ihf (by simp) (iha (by simp) hk)
    cases place with
    | head => exact (hspine hk).cons (by simp)
    | operand => exact (hspine (hk.cons (by simp))).cons (by simp)
    | _ => exact hspine hk

theorem lambdasLead_tokens (e : Expr) : LambdasLead e.tokens := by
  cases e with
  | var x => exact follows_nil.leads_cons (ident x)
  | lam x body =>
    have hnames : Follows (ident x :: body.emit .head []) :=
      (follows_emit (by simp) body follows_nil).cons (by simp)
    exact hnames.leads_cons lambda
  | app f a =>
    have hoperator : Place.operator ≠ .whole := by simp
    exact (follows_emit hoperator (app f a) follows_nil).leads

end Expr

namespace Token

/-- Of the tokens only an opening parenthesis is written with one. -/
theorem count_text {t : Token} (ht : ∀ x, t = ident x → IsWord x) :
    t.text.toList.count '(' = [t].count openParen := by
  cases t with
  | ident x =>
    have hletters : '(' ∉ x.toList := fun hmem ↦
      absurd ((ht x rfl).2 '(' hmem) (by decide)
    exact List.count_eq_zero.2 hletters
  | _ => rfl

theorem count_spaced {ts : List Token} (h : ∀ x, ident x ∈ ts → IsWord x) :
    (spaced ts).count '(' = ts.count openParen := by
  fun_induction spaced ts with
  | case1 => rfl
  | case2 t => exact count_text fun x hx ↦ h x (by simp [hx])
  | case3 t u ts ih =>
    have hgap : (gap t u).count '(' = 0 := by
      rcases gap_eq t u with hgap | hgap <;> rw [hgap] <;> rfl
    have htext : t.text.toList.count '(' = [t].count openParen :=
      count_text fun x hx ↦ h x (by simp [hx])
    have hrest : (spaced (u :: ts)).count '(' = (u :: ts).count openParen :=
      ih fun x hx ↦ h x (List.mem_cons_of_mem t hx)
    rw [List.count_append, List.count_append, hgap, htext, hrest, Nat.add_zero,
      ← List.count_append, List.singleton_append]

end Token

namespace Expr

open Token

/-- The tokens stand for the expression: its names are words, and no abstraction trails. -/
structure Writes (ts : List Token) (e : Expr) : Prop where
  words : ∀ x, ident x ∈ ts → IsWord x
  leads : LambdasLead ts
  parses : parse ts = .ok e

theorem Writes.isWord_of_mem_tokens {ts : List Token} {e : Expr} (h : Writes ts e) :
    ∀ x, ident x ∈ e.tokens → IsWord x := by
  intro x hx
  have hname : x ∈ e.names := mem_names_of_mem_tokens hx
  rcases mem_names_of_parseSpine (parseSpine_of_parse h.parses) hname with ⟨_, hnone, -⟩ | hident
  · cases hnone
  · exact h.words x hident

/-- **The printed form has the fewest parentheses.** However an expression is written without
trailing abstractions, the printed form has at most as many opening parentheses, and it is scanned
as a list of tokens that writes the expression in the same manner. -/
theorem render_has_fewest_parentheses (ts : List Token) (e : Expr) (h : Writes ts e) :
    e.render.toList.count '(' ≤ ts.count openParen ∧
    ∃ us, tokenize e.render = .ok us ∧ Writes us e := by
  have hwords := h.isWord_of_mem_tokens
  have hderives : Derives ts (.expr e) := completes_of_parseSpine (parseSpine_of_parse h.parses)
  refine ⟨?_, e.tokens, tokenize_spaced hwords, hwords, lambdasLead_tokens e, parse_tokens e⟩
  rw [render, String.toList_ofList, count_spaced hwords]
  exact hderives.parens_le h.leads

/-- Of four groups one is needed. -/
theorem render_has_fewest_parentheses_redundant_groups :
    Writes [openParen, openParen, lambda, ident "x", dot, ident "x", closeParen, closeParen,
      openParen, openParen, ident "a", closeParen, closeParen]
      (app (lam "x" (var "x")) (var "a")) ∧
    (app (lam "x" (var "x")) (var "a")).render = "(λ x . x) a" ∧
    (app (lam "x" (var "x")) (var "a")).render.toList.count '(' ≤ 4 ∧
    ∃ us, tokenize "(λ x . x) a" = .ok us ∧ Writes us (app (lam "x" (var "x")) (var "a")) := by
  have htokens : tokenize "((λx. x)) ((a))" = .ok [openParen, openParen, lambda, ident "x", dot,
      ident "x", closeParen, closeParen, openParen, openParen, ident "a", closeParen,
      closeParen] := by decide +kernel
  have hrender : (app (lam "x" (var "x")) (var "a")).render = "(λ x . x) a" := by decide +kernel
  have hwrites : Writes _ (app (lam "x" (var "x")) (var "a")) :=
    ⟨fun x hx ↦ isWord_of_tokenize htokens hx, by decide, by decide +kernel⟩
  obtain ⟨hcount, hprinted⟩ := render_has_fewest_parentheses _ _ hwrites
  exact ⟨hwrites, hrender, hcount, hrender ▸ hprinted⟩

end Expr

end UntypedLambda
