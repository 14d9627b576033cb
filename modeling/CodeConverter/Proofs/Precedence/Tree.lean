import CodeConverter.Text.Basic

/-!
# Operator precedence

Expressions are trees of words, signs between operands, signs in front of an operand, and
parentheses. `Ranks` says how tightly each sign of a language binds, and `Fits` is the grammar that
belongs to the ranks: it derives the trees whose operands bind at least as tightly as their signs
ask. A list of tokens has at most one tree that fits (`Fits.unique`): `rebuild` finds it with a
stack of the signs that wait for their right operand.
-/

namespace CodeConverter.Precedence

open List

variable {σ : Type}

/-- The words, signs and parentheses of an expression. -/
inductive Token (σ : Type) where
  | word (text : Text)
  | sign (s : σ)
  | opening
  | closing
  deriving DecidableEq

/-- Expressions. Parentheses are kept. -/
inductive Tree (σ : Type) where
  | word (text : Text)
  | unary (s : σ) (body : Tree σ)
  | binary (s : σ) (left right : Tree σ)
  | grouped (body : Tree σ)
  deriving DecidableEq

/-- The tokens of an expression from left to right. -/
def Tree.tokens : Tree σ → List (Token σ)
  | .word text => [.word text]
  | .unary s body => .sign s :: body.tokens
  | .binary s left right => left.tokens ++ .sign s :: right.tokens
  | .grouped body => .opening :: (body.tokens ++ [.closing])

/-- The words of an expression from left to right. -/
def Tree.words : Tree σ → List Text
  | .word text => [text]
  | .unary _ body => body.words
  | .binary _ left right => left.words ++ right.words
  | .grouped body => body.words

/-- How tightly the signs of a language bind between operands and in front of an operand, more
tightly for a higher rank, and which signs may follow an operand of their own rank. -/
structure Ranks (σ : Type) where
  between : σ → Option Nat
  front : σ → Option Nat
  chains : σ → Bool
  front_ne_between : ∀ s s' m, front s = some m → between s' ≠ some m

/-- The expressions that a language derives at a level: their outermost sign has at least that rank.
A sign in front takes an operand of its own level, a sign between operands takes one of the next
level on its right and, unless it chains, on its left. -/
inductive Fits (ranks : Ranks σ) : Nat → Tree σ → Prop
  | word (level : Nat) (text : Text) : Fits ranks level (.word text)
  | unary {level rank : Nat} {s : σ} {body : Tree σ} : ranks.front s = some rank → level ≤ rank →
      Fits ranks rank body → Fits ranks level (.unary s body)
  | binary {level rank : Nat} {s : σ} {left right : Tree σ} : ranks.between s = some rank →
      level ≤ rank →
      Fits ranks (if ranks.chains s then rank else rank + 1) left → Fits ranks (rank + 1) right →
      Fits ranks level (.binary s left right)
  | grouped {body : Tree σ} (level : Nat) : Fits ranks 0 body → Fits ranks level (.grouped body)

/-- What waits for an operand on its right: a parenthesis, a sign in front, or a sign behind its
left operand. -/
inductive Frame (σ : Type) where
  | group
  | unary (s : σ)
  | left (s : σ) (operand : Tree σ)

/-- Gives the operand to the waiting signs of at least the given rank. -/
def close (ranks : Ranks σ) (level : Nat) : List (Frame σ) → Tree σ → List (Frame σ) × Tree σ
  | .unary s :: frames, operand =>
    if (ranks.front s).any (level ≤ ·) then close ranks level frames (.unary s operand)
    else (.unary s :: frames, operand)
  | .left s first :: frames, operand =>
    if (ranks.between s).any (level ≤ ·) then close ranks level frames (.binary s first operand)
    else (.left s first :: frames, operand)
  | frames, operand => (frames, operand)

/-- Rebuilds an expression from its tokens; the tree is the operand that was just completed. -/
def rebuild (ranks : Ranks σ) : List (Frame σ) → Option (Tree σ) → List (Token σ) → Option (Tree σ)
  | frames, none, .word text :: tokens => rebuild ranks frames (some (.word text)) tokens
  | frames, none, .opening :: tokens => rebuild ranks (.group :: frames) none tokens
  | frames, none, .sign s :: tokens => rebuild ranks (.unary s :: frames) none tokens
  | frames, some operand, .sign s :: tokens =>
    match ranks.between s with
    | none => none
    | some rank =>
      let closed := close ranks rank frames operand
      rebuild ranks (.left s closed.2 :: closed.1) none tokens
  | frames, some operand, .closing :: tokens =>
    match close ranks 0 frames operand with
    | (.group :: frames, body) => rebuild ranks frames (some (.grouped body)) tokens
    | _ => none
  | frames, some operand, [] =>
    match close ranks 0 frames operand with
    | ([], tree) => some tree
    | _ => none
  | _, _, _ => none

variable {ranks : Ranks σ} {level k : Nat} {tree other : Tree σ}

/-- The frames that still wait after all tokens of an expression were read. -/
def Tree.spine : Tree σ → List (Frame σ)
  | .unary s body => body.spine ++ [.unary s]
  | .binary s left right => right.spine ++ [.left s left]
  | _ => []

/-- The last operand of an expression. -/
def Tree.last : Tree σ → Tree σ
  | .unary _ body => body.last
  | .binary _ _ right => right.last
  | tree => tree

/-- The level that the waiting frames ask of their operand. -/
def floor (ranks : Ranks σ) : List (Frame σ) → Nat
  | .unary s :: _ => (ranks.front s).getD 0
  | .left s _ :: _ => (ranks.between s).getD 0 + 1
  | _ => 0

theorem close_spine (h : Fits ranks level tree) (frames : List (Frame σ)) (hk : k ≤ level) :
    close ranks k (tree.spine ++ frames) tree.last = close ranks k frames tree := by
  induction h generalizing frames with
  | word => rfl
  | grouped => rfl
  | @unary level rank s body hrank hlevel _ ih =>
    rw [Tree.spine, Tree.last, append_assoc, ih _ (Nat.le_trans hk hlevel)]
    have hclosed : (ranks.front s).any (k ≤ ·) = true := by
      simpa [hrank] using Nat.le_trans hk hlevel
    simp [close, hclosed]
  | @binary level rank s left right hrank hlevel _ _ _ ih =>
    rw [Tree.spine, Tree.last, append_assoc, ih _ (by omega)]
    have hclosed : (ranks.between s).any (k ≤ ·) = true := by
      simpa [hrank] using Nat.le_trans hk hlevel
    simp [close, hclosed]

/-- An operator at the floor or above it closes no frame. -/
theorem close_floor {s : σ} (hrank : ranks.between s = some k) {frames : List (Frame σ)}
    (hframes : ∀ s' first, .left s' first ∈ frames.head? → (ranks.between s').isSome)
    (hfloor : floor ranks frames ≤ k) : close ranks k frames tree = (frames, tree) := by
  cases frames with
  | nil => rfl
  | cons frame frames =>
    cases frame with
    | group => rfl
    | unary s' =>
      have hopen : (ranks.front s').any (k ≤ ·) = false := by
        cases hfront : ranks.front s' with
        | none => rfl
        | some m =>
          have hne : m ≠ k := by
            rintro rfl
            exact ranks.front_ne_between s' s m hfront hrank
          simp only [floor, hfront, Option.getD_some] at hfloor
          simp only [Option.any_some, decide_eq_false_iff_not]
          omega
      simp [close, hopen]
    | left s' first =>
      obtain ⟨m, hm⟩ := Option.isSome_iff_exists.mp (hframes s' first rfl)
      have hopen : (ranks.between s').any (k ≤ ·) = false := by
        simp only [floor, hm, Option.getD_some] at hfloor
        simp only [hm, Option.any_some, decide_eq_false_iff_not]
        omega
      simp [close, hopen]

section

variable (h : Fits ranks level tree)

include h

/-- Reading the tokens of an expression leaves its frames waiting for its last operand. -/
theorem rebuild_tokens (frames : List (Frame σ))
    (hframes : ∀ s' first, .left s' first ∈ frames.head? → (ranks.between s').isSome)
    (hfloor : floor ranks frames ≤ level) (rest : List (Token σ)) :
    rebuild ranks frames none (tree.tokens ++ rest) = rebuild ranks (tree.spine ++ frames)
    (some tree.last) rest := by
  induction h generalizing frames rest with
  | word => rfl
  | @unary level rank s body hrank hlevel _ ih =>
    rw [Tree.tokens, cons_append, rebuild, ih _ (by simp) (by simp [floor, hrank]), Tree.spine,
      append_assoc]
    rfl
  | @grouped body level hbody ih =>
    rw [Tree.tokens, cons_append, rebuild, append_assoc, ih _ (by simp) (Nat.zero_le _),
      singleton_append, rebuild, close_spine hbody _ (Nat.le_refl 0)]
    rfl
  | @binary level rank s left right hrank hlevel hleft _ ihleft ihright =>
    have hlow : rank ≤ if ranks.chains s then rank else rank + 1 := by split <;> omega
    rw [Tree.tokens, append_assoc, ihleft _ hframes (by omega), cons_append, rebuild]
    simp only [hrank]
    rw [close_spine hleft _ hlow, close_floor hrank hframes (by omega),
      ihright _ (by simp [hrank]) (by simp [floor, hrank]), Tree.spine, append_assoc]
    rfl

theorem Fits.rebuild_eq : rebuild ranks [] none tree.tokens = some tree := by
  have hread := rebuild_tokens h [] (by simp) (Nat.zero_le _) []
  rw [append_nil, append_nil] at hread
  have hclosed := close_spine h [] (Nat.zero_le level)
  rw [append_nil] at hclosed
  rw [hread, rebuild, hclosed]
  rfl

theorem Fits.unique (hother : Fits ranks k other) (htokens : tree.tokens = other.tokens) :
    tree = other := by
  have hsame := h.rebuild_eq
  rw [htokens, hother.rebuild_eq] at hsame
  exact (Option.some.inj hsame).symm

end

end CodeConverter.Precedence
