import Mathlib.Data.Set.Subsingleton
import UntypedLambda.Proofs.Parentheses
import UntypedLambda.Proofs.ReadNames

/-!
# The parser accepts its grammar

The grammar has three kinds of phrase:

    Expr ::= λ Id⁺ . Expr  |  Atom Tail
    Tail ::= nothing       |  Atom Tail  |  λ Id⁺ . Expr
    Atom ::= Id            |  ( Expr )

An abstraction with many names stands for one abstraction for each of them, and the expressions
of a tail are applied from left to right. `Derives` is this and nothing more: it neither counts
parentheses nor carries what was read before. Parsing accepts the lists that derive an
expression, and returns that expression (`parse_eq_ok_iff_derives`).

The parser reads a tail with the operator in hand, so what it has read is compared with a
derivation through the spine (`Completes`), branch by branch of the parser. In the other direction
each phrase says how it is read (`Phrase.IsRead`): an atom is read in front of anything, and that a
group is cut at the right place is the only use of the parentheses being balanced.
-/

namespace UntypedLambda

namespace Expr

open Token

/-! ### The grammar -/

/-- What a list of tokens may stand for. -/
inductive Phrase where
  | expr (e : Expr)
  | atom (e : Expr)
  /-- The operands that follow an atom, from left to right. -/
  | tail (operands : List Expr)

/-- The grammar: the tokens derive the phrase. -/
inductive Derives : List Token → Phrase → Prop
  | abstraction {xs : List Name} {ts : List Token} {body : Expr} (hxs : xs ≠ [])
      (h : Derives ts (.expr body)) :
      Derives (lambda :: xs.map ident ++ dot :: ts) (.expr (lams xs body))
  | application {ts us : List Token} {f : Expr} {as : List Expr} (hf : Derives ts (.atom f))
      (has : Derives us (.tail as)) : Derives (ts ++ us) (.expr (as.foldl app f))
  | tailNil : Derives [] (.tail [])
  | tailCons {ts us : List Token} {a : Expr} {as : List Expr} (ha : Derives ts (.atom a))
      (has : Derives us (.tail as)) : Derives (ts ++ us) (.tail (a :: as))
  | tailAbstraction {xs : List Name} {ts : List Token} {body : Expr} (hxs : xs ≠ [])
      (h : Derives ts (.expr body)) :
      Derives (lambda :: xs.map ident ++ dot :: ts) (.tail [lams xs body])
  | ident (x : Name) : Derives [ident x] (.atom (var x))
  | group {ts : List Token} {e : Expr} (h : Derives ts (.expr e)) :
      Derives (openParen :: ts ++ [closeParen]) (.atom e)

theorem Derives.balanced {ts : List Token} {p : Phrase} (h : Derives ts p) : Balanced ts := by
  induction h with
  | abstraction hxs h ih => exact Balanced.abstraction_iff.2 ih
  | application hf has ihf ihas => exact ihf.append ihas
  | tailNil => rfl
  | tailCons ha has iha ihas => exact iha.append ihas
  | tailAbstraction hxs h ih => exact Balanced.abstraction_iff.2 ih
  | ident x => rfl
  | group h ih => exact ih.group

/-! ### The equations of the parser -/

theorem splitNames_append (xs : List Name) (ts : List Token) :
    splitNames (xs.map ident ++ dot :: ts) = (xs, dot :: ts) := by
  induction xs with
  | nil => rfl
  | cons x xs ih => rw [List.map_cons, List.cons_append, splitNames, ih]

theorem splitHead_eq_ok_iff {ts body : List Token} {xs : List Name} :
    splitHead ts = .ok (xs, body) ↔ xs ≠ [] ∧ ts = xs.map ident ++ dot :: body := by
  constructor
  · intro h
    refine ⟨?_, append_of_splitHead h⟩
    rintro rfl
    rw [append_of_splitHead h] at h
    cases h
  · rintro ⟨hxs, rfl⟩
    obtain ⟨x, xs, rfl⟩ := List.exists_cons_of_ne_nil hxs
    rw [splitHead, splitNames_append]

theorem parseSpine_group {ts inner rest : List Token} {e : Expr}
    (hsplit : splitGroup 0 ts = some (inner, rest)) (hinner : parseSpine none inner = .ok e)
    (spine : Option Expr) :
    parseSpine spine (openParen :: ts) = parseSpine (some (applied spine e)) rest := by
  rw [parseSpine]
  split
  · next hnone =>
    rw [hsplit] at hnone
    cases hnone
  · next hsome =>
    rw [hsplit] at hsome
    cases hsome
    rw [hinner]

theorem parseSpine_abstraction {ts body : List Token} {xs : List Name} {e : Expr}
    (hsplit : splitHead ts = .ok (xs, body)) (hbody : parseSpine none body = .ok e)
    (spine : Option Expr) :
    parseSpine spine (lambda :: ts) = .ok (applied spine (lams xs e)) := by
  rw [parseSpine]
  split
  · next herror =>
    rw [hsplit] at herror
    cases herror
  · next hok =>
    rw [hsplit] at hok
    cases hok
    rw [hbody]

/-! ### What is read is derived -/

/-- The tokens complete the spine read so far to `e`. -/
def Completes (ts : List Token) (e : Expr) : Option Expr → Prop
  | none => Derives ts (.expr e)
  | some f => ∃ as, Derives ts (.tail as) ∧ as.foldl app f = e

theorem Completes.atom {ts us : List Token} {a e : Expr} {spine : Option Expr}
    (ha : Derives ts (.atom a)) (h : Completes us e (some (applied spine a))) :
    Completes (ts ++ us) e spine := by
  obtain ⟨as, has, rfl⟩ := h
  rcases spine with - | f
  · exact Derives.application ha has
  · exact ⟨a :: as, .tailCons ha has, rfl⟩

theorem Completes.abstraction {xs : List Name} {ts : List Token} {body : Expr} (hxs : xs ≠ [])
    (h : Derives ts (.expr body)) (spine : Option Expr) :
    Completes (lambda :: xs.map ident ++ dot :: ts) (applied spine (lams xs body)) spine := by
  rcases spine with - | f
  · exact Derives.abstraction hxs h
  · exact ⟨[lams xs body], .tailAbstraction hxs h, rfl⟩

theorem completes_of_parseSpine {spine : Option Expr} {ts : List Token} {e : Expr}
    (h : parseSpine spine ts = .ok e) : Completes ts e spine := by
  fun_induction parseSpine spine ts generalizing e with
  | case1 | case4 | case5 | case7 | case8 | case10 | case11 => cases h
  | case2 f =>
    cases h
    exact ⟨[], .tailNil, rfl⟩
  | case3 spine x ts ih => exact .atom (.ident x) (ih h)
  | case6 spine ts inner rest hsplit hlength a hinner ihinner ihrest =>
    have hgroup : Derives (openParen :: inner ++ [closeParen]) (.atom a) := .group (ihinner hinner)
    rw [append_of_splitGroup hsplit]
    simpa using Completes.atom hgroup (ihrest h)
  | case9 spine ts xs body hsplit hlength f hbody ih =>
    obtain ⟨hxs, rfl⟩ := splitHead_eq_ok_iff.1 hsplit
    cases h
    exact .abstraction hxs (ih hbody) spine

/-! ### What is derived is read -/

/-- How the parser reads a list of tokens that stands for a phrase. -/
def Phrase.IsRead (ts : List Token) : Phrase → Prop
  | expr e => parseSpine none ts = .ok e
  | atom a => ∀ spine rest,
      parseSpine spine (ts ++ rest) = parseSpine (some (applied spine a)) rest
  | tail as => ∀ f, parseSpine (some f) ts = .ok (as.foldl app f)

theorem Derives.isRead {ts : List Token} {p : Phrase} (h : Derives ts p) : p.IsRead ts := by
  induction h with
  | @abstraction xs ts body hxs h ih =>
    exact parseSpine_abstraction (splitHead_eq_ok_iff.2 ⟨hxs, rfl⟩) ih none
  | @application ts us f as hf has ihf ihas =>
    show parseSpine none (ts ++ us) = _
    rw [ihf none us]
    exact ihas f
  | tailNil =>
    intro f
    rw [parseSpine]
    rfl
  | @tailCons ts us a as ha has iha ihas =>
    intro f
    rw [iha (some f) us]
    exact ihas (app f a)
  | @tailAbstraction xs ts body hxs h ih =>
    intro f
    exact parseSpine_abstraction (splitHead_eq_ok_iff.2 ⟨hxs, rfl⟩) ih (some f)
  | ident x =>
    intro spine rest
    rw [List.singleton_append, parseSpine]
  | @group ts e h ih =>
    intro spine rest
    have hsplit : splitGroup 0 (ts ++ closeParen :: rest) = some (ts, rest) :=
      splitGroup_of_depthAfter? h.balanced rest
    simpa using parseSpine_group hsplit ih spine

/-- Parsing without the check of the parentheses accepts what the grammar derives, too. -/
theorem parseUnchecked_eq_ok_iff {ts : List Token} {e : Expr} :
    parseUnchecked ts = .ok e ↔ Derives ts (.expr e) :=
  ⟨completes_of_parseSpine, Derives.isRead⟩

theorem parse_of_derives {ts : List Token} {e : Expr} (h : Derives ts (.expr e)) :
    parse ts = .ok e := by
  rw [parse_of_balanced h.balanced]
  exact parseUnchecked_eq_ok_iff.2 h

/-- **The parser accepts exactly its grammar, and builds its tree.** A list of tokens derives at
most one expression, and that is the one that parsing returns. -/
theorem parse_eq_ok_iff_derives :
    (∀ (ts : List Token) (e : Expr), parse ts = .ok e ↔ Derives ts (.expr e)) ∧
    ∀ ts : List Token, {e | Derives ts (.expr e)}.Subsingleton := by
  constructor
  · intro ts e
    exact ⟨fun h ↦ completes_of_parseSpine (parseSpine_of_parse h), parse_of_derives⟩
  · intro ts e he e' he'
    have hparse := parse_of_derives he
    rw [parse_of_derives he'] at hparse
    exact (Except.ok.inj hparse).symm

end Expr

end UntypedLambda
