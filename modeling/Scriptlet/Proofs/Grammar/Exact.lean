import Mathlib.Computability.Language
import Scriptlet.Proofs.Grammar.Sticks
import Scriptlet.Proofs.Grammar.Sound

/-!
Rules that read exactly a language. Whatever such a rule yields, it took a word of the language
and looked at no more than the class of the token after it. Whatever it is stuck with, the
tokens before the place where it stopped begin a word, the classes of tokens it offers there
continue one, and the token it found there makes it stuck in the same way, whatever follows.
Rules put one after another read the product of their languages exactly.
-/
namespace Scriptlet

namespace GrammarError

def expected : GrammarError → List Token.Class
  | unexpected classes _ => classes
  | endOfInput classes => classes
  | _ => []

/-- What an error tells about the place it is found at, from the tokens before that place and
those after it. A comparison that is assigned has just been read, and the error names the
`let` it belongs to. -/
def StopsAt : GrammarError → List Token → List Token → Prop
  | unexpected _ k, _, rest => rest.head? = some k
  | notStatement k, _, rest => rest.head? = some k
  | reserved k, _, rest => rest.head? = some k
  | endOfInput _, _, rest => rest = []
  | noStatement, _, _ => False
  | comparisonAssigned id p, pre, _ => ∃ outer q r us test,
      pre = outer ++ ⟨.keyword .letWord, p⟩ :: ⟨.identifier id, q⟩ :: ⟨.mark .equals, r⟩ :: us ∧
        Grammar.Phrase.Comparison us test ∧ test.isComparison = true

end GrammarError

namespace Grammar

@[simp] theorem unsigned_append (ts us : List Token) :
    Unsigned (ts ++ us) ↔ Unsigned ts ∧ Unsigned us := by
  constructor
  · intro h
    exact ⟨h.left, h.right⟩
  · rintro ⟨hts, hus⟩ k hk
    rcases List.mem_append.mp hk with hk | hk
    · exact hts k hk
    · exact hus k hk

def SameHead (ts us : List Token) : Prop :=
  ts.head?.map (·.kind.toClass) = us.head?.map (·.kind.toClass)

theorem SameHead.append {ts us : List Token} (h : SameHead ts us) (pre : List Token) :
    SameHead (pre ++ ts) (pre ++ us) := by
  cases pre with
  | nil => exact h
  | cons k pre => rfl

theorem sameHead_of_head? {rest : List Token} {k : Token} (h : k ∈ rest.head?)
    (pre more : List Token) : SameHead (pre ++ rest) (pre ++ k :: more) := by
  apply SameHead.append
  rw [SameHead, Option.mem_def.mp h]
  rfl

def words {α : Type} (phrase : List Token → α → Prop) : Language Token :=
  {ts | ∃ a, phrase ts a}

def remainders (first whole : Language Token) : Language Token :=
  {us | ∀ ts ∈ first, ts ++ us ∈ whole}

/-- The tokens begin a word. As everywhere in scripts, no integer in it has a sign. -/
def Begins (lang : Language Token) (ts : List Token) : Prop :=
  ∃ more, ts ++ more ∈ lang ∧ Unsigned (ts ++ more)

theorem begins_of_mem {lang : Language Token} {ts : List Token} (h : ts ∈ lang)
    (hu : Unsigned ts) : Begins lang ts :=
  ⟨[], by simpa using h, by simpa using hu⟩

def Offers (lang : Language Token) (ts : List Token) (classes : List Token.Class) : Prop :=
  ∀ c ∈ classes, ∀ k : Token, k.kind.toClass = c → Unsigned [k] → Begins lang (ts ++ [k])

/-- The error is found at the first token of `ts` that no word of the language has there. The
tokens `before` were read before `ts`; `sticks` says on which tokens the error is found. -/
def Locates (before : List Token) (lang : Language Token) (sticks : List Token → Prop)
    (e : GrammarError) (ts : List Token) : Prop :=
  ∃ pre rest, ts = pre ++ rest ∧ e.StopsAt (before ++ pre) rest ∧ Begins lang pre ∧
    Offers lang pre e.expected ∧ ∀ k ∈ rest.head?, ∀ more, sticks (pre ++ k :: more)

section Locates

variable {before : List Token} {lang lang' : Language Token} {sticks sticks' : List Token → Prop}
  {e : GrammarError} {ts : List Token}

/-- An error found in the second part of a word is found in the word. -/
theorem Locates.after (used : List Token) (h : Locates (before ++ used) lang' sticks' e ts)
    (hlang : ∀ us, Unsigned us → us ∈ lang' → Begins lang (used ++ us))
    (hsticks : ∀ us, SameHead ts us → sticks' us → sticks (used ++ us)) :
    Locates before lang sticks e (used ++ ts) := by
  obtain ⟨pre, rest, rfl, hstops, hbegins, hoffers, hhopeless⟩ := h
  have hbegun : ∀ us, Begins lang' us → Begins lang (used ++ us) := by
    rintro us ⟨more, hmem, hu⟩
    obtain ⟨last, hlast, hu⟩ := hlang (us ++ more) hu hmem
    exact ⟨more ++ last, by simpa using hlast, by simpa using hu⟩
  refine ⟨used ++ pre, rest, by simp, by simpa using hstops, hbegun pre hbegins, ?_, ?_⟩
  · intro c hc k hk hu
    rw [List.append_assoc]
    exact hbegun _ (hoffers c hc k hk hu)
  · intro k hk more
    rw [List.append_assoc]
    exact hsticks _ (sameHead_of_head? hk pre more) (hhopeless k hk more)

/-- An error found in the first part of a word is found in the word. -/
theorem Locates.front (h : Locates before lang' sticks' e ts)
    (hlang : ∀ us, Unsigned us → us ∈ lang' → Begins lang us)
    (hsticks : ∀ us, SameHead ts us → sticks' us → sticks us) : Locates before lang sticks e ts :=
  Locates.after [] (by simpa using h) hlang hsticks

theorem Locates.imp (h : Locates before lang sticks' e ts)
    (hsticks : ∀ us, SameHead ts us → sticks' us → sticks us) : Locates before lang sticks e ts :=
  h.front (fun _ hu hmem => begins_of_mem hmem hu) hsticks

/-- An error found at the first token. -/
theorem Locates.here (hstops : e.StopsAt before ts) (hbegins : Begins lang [])
    (hoffers : Offers lang [] e.expected)
    (hhopeless : ∀ k ∈ ts.head?, ∀ more, sticks (k :: more)) :
    Locates before lang sticks e ts :=
  ⟨[], ts, rfl, by simpa using hstops, hbegins, hoffers, hhopeless⟩

end Locates

/-- The rule reads exactly the language on the tokens `ts`, which stand after `before`. -/
structure Exact {α : Type} {n : List Token → Nat} (before : List Token) (lang : Language Token)
    (rule : (ts : List Token) → Reply α (n ts)) (ts : List Token) : Prop where
  taken : ∀ a rest, (rule ts).Yields a rest → ∃ used, ts = used ++ rest ∧
    (Unsigned (before ++ ts) → used ∈ lang) ∧
    ∀ rest', SameHead rest rest' → (rule (used ++ rest')).Yields a rest'
  located : ∀ e, (rule ts).Sticks e → Unsigned (before ++ ts) →
    Locates before lang (fun us => (rule us).Sticks e) e ts

namespace Exact

variable {α β : Type} {n m l : List Token → Nat} {before ts : List Token} {k : Token}
  {lang lang' first : Language Token}

/-- Two rules that are the same as soon as the class of the first token is known. -/
theorem congr {rule : (ts : List Token) → Reply α (n ts)}
    {rule' : (ts : List Token) → Reply α (m ts)}
    (hsame : ∀ us, SameHead ts us → Reply.Same (rule us) (rule' us))
    (h : Exact before lang rule' ts) : Exact before lang rule ts := by
  have hhere := hsame ts rfl
  constructor
  · intro a rest hy
    obtain ⟨used, rfl, hmem, hlocal⟩ := h.taken a rest ((hhere.1 a rest).mp hy)
    refine ⟨used, rfl, hmem, fun rest' hrest => ?_⟩
    exact ((hsame _ (hrest.append used)).1 a rest').mpr (hlocal rest' hrest)
  · intro e hs hu
    exact (h.located e ((hhere.2 e).mp hs) hu).imp fun us hus => ((hsame us hus).2 e).mpr

/-- A rule that reads a part of a language exactly, and nothing else, reads the language so. -/
theorem mono {rule : (ts : List Token) → Reply α (n ts)}
    (hlang : ∀ us ∈ lang', Unsigned us → us ∈ lang) (h : Exact before lang' rule ts) :
    Exact before lang rule ts := by
  constructor
  · intro a rest hy
    obtain ⟨used, rfl, hmem, hlocal⟩ := h.taken a rest hy
    exact ⟨used, rfl, fun hu => hlang used (hmem hu) hu.right.left, hlocal⟩
  · intro e hs hu
    refine (h.located e hs hu).front (fun us hus hmem => ?_) fun us _ hs => hs
    exact begins_of_mem (hlang us hmem hus) hus

theorem map {rule : (ts : List Token) → Reply α (n ts)} (f : α → β)
    (h : Exact before lang rule ts) : Exact before lang (fun us => (rule us).map f) ts := by
  constructor
  · intro b rest hy
    obtain ⟨a, ha, rfl⟩ := (Reply.yields_map ..).mp hy
    obtain ⟨used, hts, hmem, hlocal⟩ := h.taken a rest ha
    refine ⟨used, hts, hmem, fun rest' hrest => ?_⟩
    exact (Reply.yields_map ..).mpr ⟨a, hlocal rest' hrest, rfl⟩
  · intro e hs hu
    exact (h.located e ((Reply.sticks_map ..).mp hs) hu).imp fun _ _ => (Reply.sticks_map ..).mpr

/-- A token that decides how the rule goes on. -/
theorem cons {rule : (ts : List Token) → Reply α (n ts)}
    {rule' : (ts : List Token) → Reply α (m ts)}
    (hsame : ∀ us, Reply.Same (rule (k :: us)) (rule' us))
    (hlang : ∀ us ∈ lang', Unsigned us → k :: us ∈ lang)
    (h : Exact (before ++ [k]) lang' rule' ts) : Exact before lang rule (k :: ts) := by
  have happend : before ++ [k] ++ ts = before ++ k :: ts := List.append_cons .. |>.symm
  constructor
  · intro a rest hy
    obtain ⟨used, rfl, hmem, hlocal⟩ := h.taken a rest (((hsame ts).1 a rest).mp hy)
    refine ⟨k :: used, rfl, fun hu => ?_, fun rest' hrest => ?_⟩
    · exact hlang used (hmem (happend ▸ hu)) hu.right.tail.left
    · exact ((hsame _).1 a rest').mpr (hlocal rest' hrest)
  · intro e hs hu
    refine Locates.after [k] (h.located e (((hsame ts).2 e).mp hs) (happend ▸ hu)) ?_ ?_
    · intro us hus hmem
      have hk : Unsigned [k] := Unsigned.left hu.right
      exact begins_of_mem (hlang us hmem hus) ((unsigned_append [k] us).mpr ⟨hk, hus⟩)
    · intro us _
      exact ((hsame us).2 e).mpr

/-- The rule takes nothing here and would take nothing before any token of the same class. -/
theorem stop {rule : (ts : List Token) → Reply α (n ts)} {a : α}
    (hmem : Unsigned (before ++ ts) → [] ∈ lang)
    (hstop : ∀ us, SameHead ts us → (rule us).Yields a us) : Exact before lang rule ts := by
  have hhere := hstop ts rfl
  constructor
  · intro b rest hy
    obtain ⟨_, hdone⟩ := hhere
    rw [hdone] at hy
    obtain ⟨rfl, rfl⟩ := (Reply.yields_done ..).mp hy
    exact ⟨[], rfl, hmem, hstop⟩
  · intro e hs
    exact absurd hs (hhere.not_sticks e)

theorem one {rule : (ts : List Token) → Reply α (n ts)} {a : α} (hmem : [k] ∈ lang)
    (hone : ∀ us, (rule (k :: us)).Yields a us) : Exact before lang rule (k :: ts) := by
  constructor
  · intro b rest hy
    obtain ⟨_, hdone⟩ := hone ts
    rw [hdone] at hy
    obtain ⟨rfl, rfl⟩ := (Reply.yields_done ..).mp hy
    exact ⟨[k], rfl, fun _ => hmem, fun rest' _ => hone rest'⟩
  · intro e hs
    exact absurd hs ((hone ts).not_sticks e)

theorem refuse {rule : (ts : List Token) → Reply α (n ts)} {e : GrammarError}
    (hsticks : (rule ts).Sticks e)
    (hlocates : Unsigned (before ++ ts) →
      Locates before lang (fun us => (rule us).Sticks e) e ts) :
    Exact before lang rule ts := by
  obtain ⟨rest, hstuck⟩ := hsticks
  constructor
  · intro a rest hy
    rw [hstuck] at hy
    exact (Reply.not_yields_stuck _ _ _ _ hy).elim
  · intro e' hs hu
    rw [hstuck] at hs
    obtain rfl := (Reply.sticks_stuck ..).mp hs
    exact hlocates hu

/-- A rule is right to be stuck where the tokens end, if it offers what goes on. -/
theorem refuse_nil {rule : (ts : List Token) → Reply α (n ts)} {classes : List Token.Class}
    (hsticks : (rule []).Sticks (.endOfInput classes)) (hbegins : Begins lang [])
    (hoffers : Offers lang [] classes) : Exact before lang rule [] :=
  refuse hsticks fun _ => Locates.here rfl hbegins hoffers (by simp)

/-- A rule is right to be stuck at a token that it refuses whatever follows. -/
theorem refuse_cons {rule : (ts : List Token) → Reply α (n ts)} {e : GrammarError}
    (hsticks : ∀ us, (rule (k :: us)).Sticks e) (hstops : e.StopsAt before (k :: ts))
    (hbegins : Begins lang []) (hoffers : Offers lang [] e.expected) :
    Exact before lang rule (k :: ts) := by
  refine refuse (hsticks ts) fun _ => Locates.here hstops hbegins hoffers ?_
  intro k' hk' more
  obtain rfl : k = k' := by simpa using hk'
  exact hsticks more

/-- One rule after another. What the second rule reads may depend on what the first one took,
and it can always end what the first one took or began. -/
theorem bind {rule : (ts : List Token) → Reply β (n ts)}
    {rule₁ : (ts : List Token) → Reply α (m ts)} {rule₂ : α → (ts : List Token) → Reply β (l ts)}
    {second : List Token → Language Token}
    (hyields : ∀ us b rest, (rule us).Yields b rest ↔
      ∃ a mid, (rule₁ us).Yields a mid ∧ (rule₂ a mid).Yields b rest)
    (hsticks : ∀ us e, (rule us).Sticks e ↔
      (rule₁ us).Sticks e ∨ ∃ a mid, (rule₁ us).Yields a mid ∧ (rule₂ a mid).Sticks e)
    (hend : ∀ us ∈ first, Unsigned us → Begins lang us)
    (hlang : ∀ us ∈ first, ∀ vs ∈ second us, us ++ vs ∈ lang)
    (h₁ : Exact before first rule₁ ts)
    (h₂ : ∀ used a mid, ts = used ++ mid → (rule₁ ts).Yields a mid →
      Exact (before ++ used) (second used) (rule₂ a) mid) :
    Exact before lang rule ts := by
  constructor
  · intro b rest hy
    obtain ⟨a, mid, hy₁, hy₂⟩ := (hyields ts b rest).mp hy
    obtain ⟨us, rfl, hus, hlocal₁⟩ := h₁.taken a mid hy₁
    obtain ⟨vs, rfl, hvs, hlocal₂⟩ := (h₂ us a mid rfl hy₁).taken b rest hy₂
    refine ⟨us ++ vs, by simp, fun hu => ?_, fun rest' hrest => ?_⟩
    · exact hlang us (hus hu) vs (hvs (by simpa using hu))
    · rw [List.append_assoc]
      exact (hyields _ b rest').mpr ⟨a, vs ++ rest', hlocal₁ _ (hrest.append vs),
        hlocal₂ rest' hrest⟩
  · intro e hs hu
    rcases (hsticks ts e).mp hs with hs₁ | ⟨a, mid, hy₁, hs₂⟩
    · refine (h₁.located e hs₁ hu).front (fun us hus hmem => hend us hmem hus) fun us _ hs => ?_
      exact (hsticks us e).mpr (.inl hs)
    · obtain ⟨us, rfl, hus, hlocal₁⟩ := h₁.taken a mid hy₁
      have hlocated := (h₂ us a mid rfl hy₁).located e hs₂ (by simpa using hu)
      refine Locates.after us hlocated (fun vs hvs hmem => ?_) fun mid' hmid hs => ?_
      · exact begins_of_mem (hlang us (hus hu) vs hmem)
          ((unsigned_append us vs).mpr ⟨hu.right.left, hvs⟩)
      · exact (hsticks _ e).mpr (.inr ⟨a, mid', hlocal₁ mid' hmid, hs⟩)

section Product

variable {second : Language Token} (hend : Begins second [])
include hend

theorem begins_mul {us : List Token} (h : us ∈ first) (hu : Unsigned us) :
    Begins (first * second) us := by
  obtain ⟨last, hlast, hlastu⟩ := hend
  exact ⟨last, Language.mem_mul.mpr ⟨us, h, last, hlast, rfl⟩,
    (unsigned_append us last).mpr ⟨hu, hlastu⟩⟩

/-- Rules that are exact are exact one after the other. -/
theorem andThen {rule₁ : (ts : List Token) → Reply α (n ts)}
    {rule₂ : α → (ts : List Token) → Reply β ts.length} (h₁ : Exact before first rule₁ ts)
    (h₂ : ∀ used a mid, ts = used ++ mid → (rule₁ ts).Yields a mid →
      Exact (before ++ used) second (rule₂ a) mid) :
    Exact before (first * second) (fun us => (rule₁ us).andThen fun a mid _ => rule₂ a mid) ts :=
  bind (fun _ => Reply.yields_andThen _ _) (fun _ => Reply.sticks_andThen _ _)
    (fun _ => begins_mul hend) (fun us hus vs hvs => Language.mem_mul.mpr ⟨us, hus, vs, hvs, rfl⟩)
    h₁ h₂

theorem andMaybe {rule₁ : (ts : List Token) → Reply α (n ts)}
    {rule₂ : α → (ts : List Token) → Reply β (ts.length + 1)} (h₁ : Exact before first rule₁ ts)
    (h₂ : ∀ used a mid, ts = used ++ mid → (rule₁ ts).Yields a mid →
      Exact (before ++ used) second (rule₂ a) mid) :
    Exact before (first * second) (fun us => (rule₁ us).andMaybe fun a mid _ => rule₂ a mid) ts :=
  bind (fun _ => Reply.yields_andMaybe _ _) (fun _ => Reply.sticks_andMaybe _ _)
    (fun _ => begins_mul hend) (fun us hus vs hvs => Language.mem_mul.mpr ⟨us, hus, vs, hvs, rfl⟩)
    h₁ h₂

end Product

end Exact

end Grammar

end Scriptlet
