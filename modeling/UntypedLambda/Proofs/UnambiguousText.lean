import UntypedLambda.Proofs.PrintedForm
import UntypedLambda.Proofs.ReachedExpressions

/-!
# The printed form determines the expression

Two expressions with the same text are the same, as long as their names can be told from what stands
around them (`render_unambiguous`). A fresh name such as `y'7` is no word, so a text with such names
is not read back, and the theorem cannot come from the reader. It comes from the way the text is
written: what it begins with, up to the first character that no name has, is its first token
(`splitFirst_spaced`), and behind the blanks that follow stands the text of the other tokens
(`trimStart_behind`). So the text determines the tokens (`spaced_inj`). These determine the
expression, whatever its names are, since they are parsed as it is (`parse_tokens`).

The names that may be written are those of at least one character, without blanks and without the
four marks. Names that are read are such names, and a fresh name adds a `'` and digits to the
beginning of one, so every expression that comes out of a text by reduction has such names only
(`Reaches.printable`).
-/

namespace UntypedLambda

namespace Token

/-! ### Names that can be told from what stands around them -/

/-- A character that is neither a blank nor the text of a mark. -/
def isNameChar (c : Char) : Bool :=
  !Text.isBlank c && c != '(' && c != ')' && c != '.' && c != 'λ'

/-- A run of such characters, at least one. -/
def IsPrintable (x : Name) : Prop := x.toList ≠ [] ∧ ∀ c ∈ x.toList, isNameChar c = true

instance (x : Name) : Decidable (IsPrintable x) :=
  decidable_of_iff (x.toList ≠ [] ∧ x.toList.all isNameChar = true)
    (and_congr_right' List.all_eq_true)

theorem isNameChar_iff {c : Char} : isNameChar c = true ↔
    Text.isBlank c = false ∧ c ≠ '(' ∧ c ≠ ')' ∧ c ≠ '.' ∧ c ≠ 'λ' := by
  simp [isNameChar, and_assoc]

/-- The digits and the letters of ASCII, and what lies between them, may stand in names. -/
theorem isNameChar_of_toNat {c : Char} (hge : 48 ≤ c.toNat) (hle : c.toNat ≤ 122) :
    isNameChar c = true := by
  have hblank : Text.isBlank c = false := isBlank_eq_false_of_toNat (by omega) (by omega)
  refine isNameChar_iff.2 ⟨hblank, ?_, ?_, ?_, ?_⟩
  all_goals
    rintro rfl
    revert hge hle
    decide

theorem IsWord.isPrintable {x : Name} (h : IsWord x) : IsPrintable x := by
  refine ⟨h.1, fun c hc ↦ ?_⟩
  have hrange := toNat_of_isLetter (h.2 c hc)
  exact isNameChar_of_toNat (by omega) (by omega)

/-- A fresh name for a name that may be written may be written. -/
theorem IsPrintable.numbered {x : Name} (h : IsPrintable x) (k : Nat) :
    IsPrintable (Supply.numbered x k) := by
  rw [IsPrintable, Supply.toList_numbered, Supply.stem, String.toList_ofList]
  refine ⟨by simp, fun c hc ↦ ?_⟩
  rcases List.mem_append.1 hc with hstem | hc
  · exact h.2 c ((List.takeWhile_sublist _).subset hstem)
  rcases List.mem_cons.1 hc with rfl | hdigit
  · decide
  · have hrange := Nat.isDigit_of_mem_toDigits (by decide) (by decide) hdigit
    obtain ⟨hge, hle⟩ := Bool.and_eq_true_iff.1 hrange
    have hge' : 48 ≤ c.toNat := of_decide_eq_true hge
    have hle' : c.toNat ≤ 57 := of_decide_eq_true hle
    exact isNameChar_of_toNat hge' (by omega)

/-! ### Taking a text apart -/

/-- The token that a text begins with, and what stands behind it. What does not begin with a mark
begins with a name, which goes as far as it can. -/
def splitFirst : List Char → Token × List Char
  | 'λ' :: cs => (lambda, cs)
  | '.' :: cs => (dot, cs)
  | '(' :: cs => (openParen, cs)
  | ')' :: cs => (closeParen, cs)
  | cs => (ident (String.ofList (cs.takeWhile isNameChar)), cs.dropWhile isNameChar)

/-- A name that ends where it is written to end is what the text begins with. -/
theorem splitFirst_name {x : Name} (hx : IsPrintable x) {cs : List Char}
    (hcs : ∀ c ∈ cs.head?, isNameChar c = false) : splitFirst (x.toList ++ cs) = (ident x, cs) := by
  obtain ⟨c, word, hword⟩ := List.exists_cons_of_ne_nil hx.1
  have hc : isNameChar c = true := hx.2 c (hword ▸ List.mem_cons_self)
  obtain ⟨-, hopen, hclose, hdot, hlambda⟩ := isNameChar_iff.1 hc
  obtain ⟨htake, hdrop⟩ := takeWhile_append_of_run hx.2 hcs
  have hsplit : splitFirst (x.toList ++ cs) =
      (ident (String.ofList ((x.toList ++ cs).takeWhile isNameChar)),
        (x.toList ++ cs).dropWhile isNameChar) := by
    rw [hword, List.cons_append]
    unfold splitFirst
    split
    next heq => exact absurd (List.cons.inj heq).1 hlambda
    next heq => exact absurd (List.cons.inj heq).1 hdot
    next heq => exact absurd (List.cons.inj heq).1 hopen
    next heq => exact absurd (List.cons.inj heq).1 hclose
    next => rfl
  rw [hsplit, htake, hdrop, String.ofList_toList]

/-- What is written behind a token, up to the end. -/
def behind (t : Token) : List Token → List Char
  | [] => []
  | u :: ts => gap t u ++ spaced (u :: ts)

theorem spaced_cons (t : Token) (ts : List Token) :
    spaced (t :: ts) = t.text.toList ++ behind t ts := by
  rcases ts with - | ⟨u, ts⟩
  · rw [behind, List.append_nil, spaced]
  · rw [behind, spaced, List.append_assoc]

/-- No character that a name could have stands right behind a name. -/
theorem isNameChar_eq_false_of_behind {x : Name} {ts : List Token} {c : Char}
    (hc : c ∈ (behind (ident x) ts).head?) : isNameChar c = false := by
  rcases ts with - | ⟨u, ts⟩
  · cases hc
  · rcases eq_of_mem_head?_gap hc with rfl | rfl <;> decide

theorem splitFirst_spaced {t : Token} (ht : ∀ x, t = ident x → IsPrintable x) (ts : List Token) :
    splitFirst (spaced (t :: ts)) = (t, behind t ts) := by
  rw [spaced_cons]
  cases t with
  | ident x => exact splitFirst_name (ht x rfl) fun c hc ↦ isNameChar_eq_false_of_behind hc
  | _ => rfl

/-- The text of a token begins with something that is no blank. -/
theorem exists_text_eq_cons {t : Token} (ht : ∀ x, t = ident x → IsPrintable x) :
    ∃ c cs, t.text.toList = c :: cs ∧ Text.isBlank c = false := by
  cases t with
  | ident x =>
    obtain ⟨hne, hchars⟩ := ht x rfl
    obtain ⟨c, cs, hx⟩ := List.exists_cons_of_ne_nil hne
    exact ⟨c, cs, hx, (isNameChar_iff.1 (hchars c (hx ▸ List.mem_cons_self))).1⟩
  | _ => exact ⟨_, _, rfl, by decide⟩

theorem spaced_ne_nil {t : Token} (ht : ∀ x, t = ident x → IsPrintable x) (ts : List Token) :
    spaced (t :: ts) ≠ [] := by
  obtain ⟨c, cs, htext, -⟩ := exists_text_eq_cons ht
  rw [spaced_cons, htext, List.cons_append]
  exact List.cons_ne_nil _ _

/-- Behind the gap that follows a token stands the text of the other tokens. -/
theorem trimStart_behind (t : Token) {ts : List Token}
    (hts : ∀ x, ident x ∈ ts → IsPrintable x) : Text.trimStart (behind t ts) = spaced ts := by
  rcases ts with - | ⟨u, ts⟩
  · rfl
  obtain ⟨c, cs, htext, hblank⟩ := exists_text_eq_cons fun x hx ↦ hts x (hx ▸ List.mem_cons_self)
  have hstay : Text.trimStart (spaced (u :: ts)) = spaced (u :: ts) := by
    rw [spaced_cons, htext, List.cons_append, Text.trimStart,
      List.dropWhile_cons_of_neg (by simp [hblank])]
  rw [behind]
  rcases gap_eq t u with hgap | hgap
  · rw [hgap, List.nil_append, hstay]
  · rw [hgap, List.singleton_append]
    exact hstay

/-- The text of tokens determines them. -/
theorem spaced_inj {ts us : List Token} (hts : ∀ x, ident x ∈ ts → IsPrintable x)
    (hus : ∀ x, ident x ∈ us → IsPrintable x) (h : spaced ts = spaced us) : ts = us := by
  induction ts generalizing us with
  | nil =>
    rcases us with - | ⟨u, us⟩
    · rfl
    · exact absurd h.symm (spaced_ne_nil (fun x hx ↦ hus x (hx ▸ List.mem_cons_self)) us)
  | cons t ts ih =>
    have ht : ∀ x, t = ident x → IsPrintable x := fun x hx ↦ hts x (hx ▸ List.mem_cons_self)
    rcases us with - | ⟨u, us⟩
    · exact absurd h (spaced_ne_nil ht ts)
    have hu : ∀ x, u = ident x → IsPrintable x := fun x hx ↦ hus x (hx ▸ List.mem_cons_self)
    have hts' : ∀ x, ident x ∈ ts → IsPrintable x := fun x hx ↦ hts x (List.mem_cons_of_mem t hx)
    have hus' : ∀ x, ident x ∈ us → IsPrintable x := fun x hx ↦ hus x (List.mem_cons_of_mem u hx)
    -- the first tokens agree, and so does what is left behind them
    have hsplit : (t, behind t ts) = (u, behind u us) := by
      rw [← splitFirst_spaced ht, h, splitFirst_spaced hu]
    obtain ⟨rfl, hbehind⟩ := Prod.mk.inj hsplit
    have hrest : spaced ts = spaced us := by
      rw [← trimStart_behind t hts', hbehind, trimStart_behind t hus']
    rw [ih hts' hus' hrest]

end Token

namespace Expr

open Token

/-- Every name of the expression may be written. -/
def Printable (e : Expr) : Prop := ∀ x ∈ e.names, IsPrintable x

instance (e : Expr) : Decidable e.Printable := inferInstanceAs (Decidable (∀ x ∈ e.names, _))

theorem printable_lam_iff {x : Name} {body : Expr} :
    (lam x body).Printable ↔ IsPrintable x ∧ body.Printable :=
  List.forall_mem_cons

theorem printable_app_iff {f a : Expr} : (app f a).Printable ↔ f.Printable ∧ a.Printable :=
  List.forall_mem_append

/-- The text of an expression determines it. -/
theorem render_inj {a b : Expr} (ha : a.Printable) (hb : b.Printable) (h : a.render = b.render) :
    a = b := by
  have hspaced : spaced a.tokens = spaced b.tokens := String.ofList_injective h
  have htokens : a.tokens = b.tokens :=
    spaced_inj (fun x hx ↦ ha x (mem_names_of_mem_tokens hx))
      (fun x hx ↦ hb x (mem_names_of_mem_tokens hx)) hspaced
  have hparsed : Except.ok a = (.ok b : Except ParseError Expr) := by
    rw [← parse_tokens a, htokens, parse_tokens]
  exact Except.ok.inj hparsed

-- a name with a blank in it cannot be told from two names
example : (var "x y").render = (app (var "x") (var "y")).render := by decide +kernel

/-! ### The names that reduction leads to -/

theorem printable_of_read {text : String} {e : Expr} (h : read text = .ok e) : e.Printable :=
  fun x hx ↦ (isWord_of_read h x hx).isPrintable

theorem Printable.substitute {x : Name} {r e : Expr} {s : Supply} (hr : r.Printable)
    (he : e.Printable) : (Expr.substitute x r e s).1.Printable := by
  induction x, r, e, s using substitute_induction with
  | var x r y s =>
    rw [substitute_var]
    split
    · exact hr
    · exact he
  | app x r f a s ihf iha =>
    obtain ⟨hf, ha⟩ := printable_app_iff.1 he
    rw [substitute_app]
    exact printable_app_iff.2 ⟨ihf hr hf, iha hr ha⟩
  | shadowed x r body s =>
    rw [substitute_shadowed]
    exact he
  | captured x r y body s hyx hfree ihrename ih =>
    obtain ⟨hy, hbody⟩ := printable_lam_iff.1 he
    have hnew : IsPrintable (s.fresh y) := hy.numbered s.next
    have hrenamed : (freshen y body s).1.Printable :=
      ihrename (List.forall_mem_singleton.2 hnew) hbody
    rw [substitute_captured hyx hfree]
    exact printable_lam_iff.2 ⟨hnew, ih hr hrenamed⟩
  | plain x r y body s hyx hfree ih =>
    obtain ⟨hy, hbody⟩ := printable_lam_iff.1 he
    rw [substitute_plain hyx hfree]
    exact printable_lam_iff.2 ⟨hy, ih hr hbody⟩

theorem Step.printable {e e' : Expr} {s s' : Supply} (h : Step e s e' s') (he : e.Printable) :
    e'.Printable := by
  induction h with
  | redex x body a s =>
    obtain ⟨hlam, ha⟩ := printable_app_iff.1 he
    exact ha.substitute (printable_lam_iff.1 hlam).2
  | lam x h ih =>
    obtain ⟨hx, hbody⟩ := printable_lam_iff.1 he
    exact printable_lam_iff.2 ⟨hx, ih hbody⟩
  | operator a hf h ih =>
    obtain ⟨hf, ha⟩ := printable_app_iff.1 he
    exact printable_app_iff.2 ⟨ih hf, ha⟩
  | operand hf hnormal h ih =>
    obtain ⟨hf, ha⟩ := printable_app_iff.1 he
    exact printable_app_iff.2 ⟨hf, ih ha⟩

theorem Reaches.printable {e e' : Expr} (h : e.Reaches e') (he : e.Printable) : e'.Printable :=
  h.of_step (P := Printable) Step.printable he

/-! ### Texts and expressions -/

/-- **The printed form is unambiguous.** Two expressions with the same text are the same, if their
names have at least one character each, and neither blanks nor `(`, `)`, `.` and `λ`. Such are the
names of every expression that is read from a text and reduced by any number of steps, wherever the
supply stands at each of them. -/
theorem render_unambiguous :
    (∀ a b : Expr, a.Printable → b.Printable → a.render = b.render → a = b) ∧
    ∀ (text : String) (e e' : Expr), read text = .ok e → e.Reaches e' → e'.Printable := by
  refine ⟨fun a b ha hb h ↦ render_inj ha hb h, fun text e e' hread hreach ↦ ?_⟩
  exact hreach.printable (printable_of_read hread)

/-- An expression with one step, in which `y` gets a fresh name. -/
def constantly : Expr := app (lam "x" (lam "y" (var "x"))) (var "y")

/-- The reduct of an expression that was read is told by its text, with a fresh name in it. -/
theorem render_unambiguous_fresh_name :
    read "(λx y. x) y" = .ok constantly ∧ constantly.Reaches (constantly.reduce { next := 7 }).1 ∧
    (constantly.reduce { next := 7 }).1.render = "λ y'7 . y" ∧
    (lam "y'7" (var "y")).Printable ∧ (lam "y'7" (var "y")).render = "λ y'7 . y" ∧
    (constantly.reduce { next := 7 }).1 = lam "y'7" (var "y") := by
  have hread : read "(λx y. x) y" = .ok constantly := by decide +kernel
  have hreach := reaches_reduce constantly { next := 7 }
  have htext : (constantly.reduce { next := 7 }).1.render = "λ y'7 . y" := by decide +kernel
  have hprintable : (lam "y'7" (var "y")).Printable := by decide
  have htext' : (lam "y'7" (var "y")).render = "λ y'7 . y" := by decide +kernel
  refine ⟨hread, hreach, htext, hprintable, htext', ?_⟩
  exact render_unambiguous.1 _ _ (render_unambiguous.2 _ _ _ hread hreach) hprintable
    (htext.trans htext'.symm)

end Expr

end UntypedLambda
