/-
Self-delimiting codes: a decoder that reads one value off the front of a stream and leaves the rest,
whatever the rest is. Streams of codewords are then read back value by value (`decodeMany_flatMap`).
-/
import Mathlib.Data.List.Basic

namespace Lib.Delimited

variable {α β ε : Type}

/-- The codeword of an admitted value is read back from the front of any continuation. -/
def Delimits (P : α → Prop) (encode : α → List β) (decode : List β → Except ε (α × List β)) : Prop :=
  ∀ a, P a → ∀ rest, decode (encode a ++ rest) = .ok (a, rest)

/-- `n` values read one after the other. -/
def decodeMany (decode : List β → Except ε (α × List β)) : Nat → List β → Except ε (List α × List β)
  | 0, bs => .ok ([], bs)
  | n + 1, bs => do
    let (a, bs) ← decode bs
    let (as, bs) ← decodeMany decode n bs
    return (a :: as, bs)

section Many

variable {decode : List β → Except ε (α × List β)}

/-- One value more. -/
theorem decodeMany_succ {n : Nat} {bs left rest : List β} {as : List α} {a : α}
    (h : decodeMany decode n bs = .ok (as, left)) (ha : decode left = .ok (a, rest)) :
    decodeMany decode (n + 1) bs = .ok (as ++ [a], rest) := by
  induction n generalizing bs as with
  | zero =>
    cases h
    simp only [decodeMany, ha, bind, Except.bind]
    rfl
  | succ n ih =>
    simp only [decodeMany, bind, Except.bind] at h
    rw [decodeMany]
    cases hb : decode bs with
    | error e => simp [hb] at h
    | ok p =>
      simp only [hb] at h
      cases hmany : decodeMany decode n p.2 with
      | error e => simp [hmany] at h
      | ok q =>
        simp only [hmany] at h
        cases h
        simp only [bind, Except.bind, ih hmany]
        rfl

/-- Where what follows a value does not matter to it, what follows many does not matter to them. -/
theorem decodeMany_append (hdecode : ∀ bs a rest more, decode bs = .ok (a, rest) →
    decode (bs ++ more) = .ok (a, rest ++ more)) {n : Nat} {bs left : List β} {as : List α}
    (h : decodeMany decode n bs = .ok (as, left)) (more : List β) :
    decodeMany decode n (bs ++ more) = .ok (as, left ++ more) := by
  induction n generalizing bs as with
  | zero =>
    cases h
    rfl
  | succ n ih =>
    simp only [decodeMany, bind, Except.bind] at h ⊢
    cases hb : decode bs with
    | error e => simp [hb] at h
    | ok p =>
      simp only [hb] at h
      rw [hdecode bs p.1 p.2 more hb]
      cases hmany : decodeMany decode n p.2 with
      | error e => simp [hmany] at h
      | ok q =>
        simp only [hmany] at h
        cases h
        simp only [ih hmany]
        rfl

end Many

namespace Delimits

variable {P : α → Prop} {encode : α → List β} {decode : List β → Except ε (α × List β)}

/-- A stream of codewords gives back its values, and what follows them is left. -/
theorem decodeMany_flatMap (h : Delimits P encode decode) {as : List α} (has : ∀ a ∈ as, P a) (rest : List β) :
    decodeMany decode as.length (as.flatMap encode ++ rest) = .ok (as, rest) := by
  induction as with
  | nil => rfl
  | cons a as ih =>
    have hhead := h a (has a List.mem_cons_self) (as.flatMap encode ++ rest)
    have htail := ih fun b hb => has b (List.mem_cons_of_mem _ hb)
    rw [List.flatMap_cons, List.append_assoc, List.length_cons]
    simp only [decodeMany, hhead, htail, bind, Except.bind]
    rfl

end Delimits

end Lib.Delimited
