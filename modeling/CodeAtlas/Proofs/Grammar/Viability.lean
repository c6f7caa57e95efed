import CodeAtlas.Encoding.Grammar
import Mathlib.Data.List.Infix

/-!
# Prefixes of what a grammar accepts

A grammar reads its bytes from left to right and never looks ahead, so its verdict on some bytes is already
settled by the shortest prefix that settles it.  This file says so, and singles out the grammars that reject
as early as possible:

* `run_append` — bytes after a settled verdict are left over;
* `exists_settled_prefix` — a settled verdict belongs to a prefix, and every shorter prefix is incomplete;
* `Productive` — some bytes are accepted to the last one;
* `Prompt` — whatever is incomplete can be completed, so hopeless bytes are rejected at once;
* `Unfailing` — nothing is rejected; such a grammar is both productive and prompt, and the property passes
  through `andThen`.
-/

namespace CodeAtlas.Grammar

variable {α β : Type}

/-! ## Verdicts and prefixes -/

/-- The same verdict with more bytes left over. -/
def Verdict.append : Verdict α → List UInt8 → Verdict α
  | accepted a rest, more => accepted a (rest ++ more)
  | incomplete, _ => incomplete
  | rejected rest, more => rejected (rest ++ more)

/-- A grammar that did not ask for another byte leaves over whatever follows. -/
theorem run_append (g : Grammar α) :
    ∀ {bs : List UInt8}, g.run bs ≠ .incomplete →
      ∀ more, g.run (bs ++ more) = (g.run bs).append more := by
  induction g with
  | accept a =>
    intro bs _ more
    rw [run_accept, run_accept]
    rfl
  | reject =>
    intro bs _ more
    rw [run_reject, run_reject]
    rfl
  | byte next ih =>
    intro bs h more
    cases bs with
    | nil => exact absurd rfl h
    | cons b bs => exact ih b h more

/-- Bytes after an accepted encoding are left over. -/
theorem run_append_of_accepted {g : Grammar α} {a : α} {bs rest : List UInt8}
    (h : g.run bs = .accepted a rest) (more : List UInt8) :
    g.run (bs ++ more) = .accepted a (rest ++ more) := by
  rw [run_append g (by rw [h]; intro hc; cases hc), h]
  rfl

/-- Bytes after a rejected sequence are left over. -/
theorem run_append_of_rejected {g : Grammar α} {bs rest : List UInt8}
    (h : g.run bs = .rejected rest) (more : List UInt8) :
    g.run (bs ++ more) = .rejected (rest ++ more) := by
  rw [run_append g (by rw [h]; intro hc; cases hc), h]
  rfl

/-- A verdict other than `incomplete` belongs to a prefix that it uses up, and about every shorter prefix
nothing can be said yet. -/
theorem exists_settled_prefix (g : Grammar α) :
    ∀ {bs : List UInt8}, g.run bs ≠ .incomplete →
      ∃ e rest, bs = e ++ rest ∧
        ((∃ a, g.run e = .accepted a []) ∨ g.run e = .rejected []) ∧
        ∀ q, q <+: e → q ≠ e → g.run q = .incomplete := by
  induction g with
  | accept a =>
    intro bs _
    refine ⟨[], bs, rfl, Or.inl ⟨a, rfl⟩, ?_⟩
    intro q hq hne
    exact absurd (List.prefix_nil.1 hq) hne
  | reject =>
    intro bs _
    refine ⟨[], bs, rfl, Or.inr rfl, ?_⟩
    intro q hq hne
    exact absurd (List.prefix_nil.1 hq) hne
  | byte next ih =>
    intro bs h
    cases bs with
    | nil => exact absurd rfl h
    | cons b bs =>
      obtain ⟨e, rest, hbs, he, hshort⟩ := ih b h
      refine ⟨b :: e, rest, by rw [hbs]; rfl, he, ?_⟩
      intro q hq hne
      cases q with
      | nil => rfl
      | cons c q =>
        obtain ⟨rfl, hq'⟩ := List.cons_prefix_cons.1 hq
        exact hshort q hq' fun heq => hne (by rw [heq])

/-- What is accepted is a prefix of the bytes. -/
theorem exists_of_run_accepted {g : Grammar α} {a : α} {bs rest : List UInt8}
    (h : g.run bs = .accepted a rest) : ∃ e, bs = e ++ rest ∧ g.run e = .accepted a [] := by
  obtain ⟨e, more, rfl, he, -⟩ := exists_settled_prefix g (by rw [h]; intro hc; cases hc)
  rcases he with ⟨c, hc⟩ | hr
  · rw [run_append_of_accepted hc] at h
    cases h
    exact ⟨e, rfl, hc⟩
  · rw [run_append_of_rejected hr] at h
    cases h

/-- What is rejected is a prefix of the bytes, and about every shorter prefix nothing can be said yet. -/
theorem exists_of_run_rejected {g : Grammar α} {bs rest : List UInt8} (h : g.run bs = .rejected rest) :
    ∃ e, bs = e ++ rest ∧ g.run e = .rejected [] ∧
      ∀ q, q <+: e → q ≠ e → g.run q = .incomplete := by
  obtain ⟨e, more, rfl, he, hshort⟩ := exists_settled_prefix g (by rw [h]; intro hc; cases hc)
  rcases he with ⟨c, hc⟩ | hr
  · rw [run_append_of_accepted hc] at h
    cases h
  · rw [run_append_of_rejected hr] at h
    cases h
    exact ⟨e, rfl, hr, hshort⟩

/-- Two accepted sequences of which one begins the other are the same. -/
theorem eq_of_prefix_of_accepted {g : Grammar α} {a b : α} {e e' : List UInt8}
    (he : g.run e = .accepted a []) (he' : g.run e' = .accepted b []) (h : e <+: e') : e = e' := by
  obtain ⟨more, rfl⟩ := h
  have hlong := run_append_of_accepted he more
  rw [he'] at hlong
  cases more with
  | nil => exact (List.append_nil e).symm
  | cons c more => cases hlong

/-! ## Grammars that reject early -/

/-- Some bytes are accepted to the last one. -/
def Productive (g : Grammar α) : Prop :=
  ∃ bs a, g.run bs = .accepted a []

/-- Whatever is incomplete can be completed: bytes that nothing completes are rejected at once. -/
def Prompt (g : Grammar α) : Prop :=
  ∀ bs, g.run bs = .incomplete → ∃ more a, g.run (bs ++ more) = .accepted a []

theorem prompt_accept (a : α) : Prompt (accept a) := by
  intro bs h
  rw [run_accept] at h
  cases h

theorem prompt_reject : Prompt (reject : Grammar α) := by
  intro bs h
  rw [run_reject] at h
  cases h

theorem productive_accept (a : α) : Productive (accept a) :=
  ⟨[], a, run_accept a []⟩

theorem productive_byte {next : UInt8 → Grammar α} (b : UInt8) (h : Productive (next b)) :
    Productive (byte next) := by
  obtain ⟨bs, a, hrun⟩ := h
  exact ⟨b :: bs, a, hrun⟩

/-- A decision is prompt if it has a way to an accepting end and everything after it is prompt. -/
theorem prompt_byte {next : UInt8 → Grammar α} (hp : Productive (byte next))
    (h : ∀ b, Prompt (next b)) : Prompt (byte next) := by
  intro bs hbs
  cases bs with
  | nil =>
    obtain ⟨more, a, hrun⟩ := hp
    exact ⟨more, a, hrun⟩
  | cons b bs => exact h b bs hbs

/-- A sequence is prompt if both parts are and the second always has an accepting end. -/
theorem Prompt.andThen {g : Grammar α} {f : α → Grammar β} (hg : Prompt g) (hf : ∀ a, Prompt (f a))
    (hp : ∀ a, Productive (f a)) : Prompt (g.andThen f) := by
  intro bs h
  rw [run_andThen] at h
  cases hrun : g.run bs with
  | accepted a rest =>
    -- the first part is complete: go on in the second
    rw [hrun] at h
    obtain ⟨more, c, hc⟩ := hf a rest h
    refine ⟨more, c, ?_⟩
    rw [run_andThen, run_append_of_accepted hrun more]
    exact hc
  | rejected rest =>
    rw [hrun] at h
    cases h
  | incomplete =>
    obtain ⟨more, a, hmore⟩ := hg bs hrun
    obtain ⟨cs, c, hc⟩ := hp a
    refine ⟨more ++ cs, c, ?_⟩
    rw [run_andThen, ← List.append_assoc, run_append_of_accepted hmore cs]
    exact hc

/-! ## Grammars that never reject -/

/-- No end of the decision tree rejects. -/
def Unfailing : Grammar α → Prop
  | accept _ => True
  | reject => False
  | byte next => ∀ b, (next b).Unfailing

/-- A sequence of grammars that never reject never rejects. -/
theorem Unfailing.andThen {g : Grammar α} {f : α → Grammar β} (hg : g.Unfailing)
    (hf : ∀ a, (f a).Unfailing) : (g.andThen f).Unfailing := by
  induction g with
  | accept a => exact hf a
  | reject => exact hg.elim
  | byte next ih => exact fun b => ih b (hg b)

/-- Where nothing is rejected, any bytes lead to an accepting end sooner or later. -/
theorem Unfailing.productive {g : Grammar α} (hg : g.Unfailing) : Productive g := by
  induction g with
  | accept a => exact productive_accept a
  | reject => exact hg.elim
  | byte next ih => exact productive_byte 0 (ih 0 (hg 0))

theorem Unfailing.prompt {g : Grammar α} (hg : g.Unfailing) : Prompt g := by
  induction g with
  | accept a => exact prompt_accept a
  | reject => exact hg.elim
  | byte next ih => exact prompt_byte hg.productive fun b => ih b (hg b)

end CodeAtlas.Grammar
