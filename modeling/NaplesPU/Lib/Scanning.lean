import Mathlib.Data.List.Basic
import Mathlib.Data.List.TakeWhile
import Mathlib.Data.Nat.Find

/-!
Texts cut into tokens by a function that reads one token at a time. A chunk of
text stands for a list of tokens when it reads as these before every text that
may follow it; chunks that may follow one another combine, so that a printed
text is read piece by piece, in the order in which it was printed.
-/

namespace Scanning

section Runs

variable {Symbol : Type*}

/-- The text does not begin with a symbol of the class. -/
def Stops (keep : Symbol → Bool) (text : List Symbol) : Prop :=
  ∀ symbol ∈ text.head?, keep symbol = false

variable {keep : Symbol → Bool} {run text : List Symbol}

theorem stops_nil : Stops keep [] := by simp [Stops]

theorem stops_cons {symbol : Symbol} (outside : keep symbol = false) :
    Stops keep (symbol :: text) := by
  simpa [Stops] using outside

theorem take_while_eq_nil (stops : Stops keep text) : text.takeWhile keep = [] := by
  cases text with
  | nil => rfl
  | cons symbol rest => rw [List.takeWhile_cons, stops symbol (by simp)]; rfl

theorem drop_while_eq_self (stops : Stops keep text) : text.dropWhile keep = text := by
  cases text with
  | nil => rfl
  | cons symbol rest => rw [List.dropWhile_cons, stops symbol (by simp)]; rfl

theorem stops_drop_while (keep : Symbol → Bool) (text : List Symbol) :
    Stops keep (text.dropWhile keep) := by
  intro symbol member
  have outside := List.head?_dropWhile_not keep text
  rw [Option.mem_def.mp member] at outside
  exact outside

theorem take_while_run (inside : ∀ symbol ∈ run, keep symbol) (stops : Stops keep text) :
    (run ++ text).takeWhile keep = run := by
  rw [List.takeWhile_append_of_pos inside, take_while_eq_nil stops, List.append_nil]

theorem drop_while_run (inside : ∀ symbol ∈ run, keep symbol) (stops : Stops keep text) :
    (run ++ text).dropWhile keep = text := by
  rw [List.dropWhile_append_of_pos inside, drop_while_eq_self stops]

end Runs

section Prefixes

variable {Symbol : Type*} {accepts : List Symbol → Prop} {text run other : List Symbol}

structure LongestPrefix (accepts : List Symbol → Prop) (text run : List Symbol) : Prop where
  first : run <+: text
  accepted : accepts run
  longest : ∀ other, other <+: text → accepts other → other.length ≤ run.length

theorem LongestPrefix.unique (longest : LongestPrefix accepts text run)
    (another : LongestPrefix accepts text other) : run = other := by
  have same := Nat.le_antisymm (another.longest run longest.first longest.accepted)
    (longest.longest other another.first another.accepted)
  exact List.IsPrefix.eq_of_length (List.prefix_of_prefix_length_le longest.first another.first
    same.le) same

def findLongest (accepts : List Symbol → Bool) (text : List Symbol) : Option (List Symbol) :=
  let run := text.take (Nat.findGreatest (fun length => accepts (text.take length)) text.length)
  if accepts run then some run else none

theorem find_longest_some {accepts : List Symbol → Bool} (found : findLongest accepts text = some run) :
    LongestPrefix (fun run => accepts run = true) text run := by
  rw [findLongest] at found
  split at found
  · rename_i accepted
    cases found
    constructor
    · exact List.take_prefix _ _
    · exact accepted
    · intro other first isAccepted
      have short := first.length_le
      have within : accepts (text.take other.length) = true := by
        rw [← List.prefix_iff_eq_take.mp first, isAccepted]
      have greatest := @Nat.le_findGreatest other.length
        (fun length => accepts (text.take length) = true) _ _ short within
      rw [List.length_take]
      exact le_min greatest short
  · cases found

theorem find_longest_none {accepts : List Symbol → Bool} (missing : findLongest accepts text = none)
    (first : other <+: text) : accepts other = false := by
  rw [findLongest] at missing
  split at missing
  · cases missing
  · rename_i rejected
    apply eq_false_of_ne_true
    intro isAccepted
    have within : accepts (text.take other.length) = true := by
      rw [← List.prefix_iff_eq_take.mp first, isAccepted]
    exact rejected (@Nat.findGreatest_spec other.length
      (fun length => accepts (text.take length) = true) _ _ first.length_le within)

/-- A first part of a text ends in its front, or takes the front and a first part of the rest. -/
theorem prefix_cases {front : List Symbol} (first : run <+: front ++ text) :
    run <+: front ∨ ∃ rest, rest <+: text ∧ run = front ++ rest := by
  rcases List.prefix_or_prefix_of_prefix first (List.prefix_append front text) with
    within | ⟨rest, rfl⟩
  · exact Or.inl within
  · exact Or.inr ⟨rest, (List.prefix_append_right_inj front).mp first, rfl⟩

/-- Behind a front of which nothing is accepted, the longest first part of the rest decides. -/
theorem LongestPrefix.behind {others : List Symbol → Prop} {front : List Symbol}
    (longest : LongestPrefix others text run)
    (same : ∀ rest, rest <+: text → (accepts (front ++ rest) ↔ others rest))
    (inside : ∀ other, other <+: front → ¬ accepts other) :
    LongestPrefix accepts (front ++ text) (front ++ run) where
  first := (List.prefix_append_right_inj front).mpr longest.first
  accepted := (same run longest.first).mpr longest.accepted
  longest := by
    intro other first accepted
    rcases prefix_cases first with within | ⟨rest, behind, rfl⟩
    · exact absurd accepted (inside other within)
    · have bound := longest.longest rest behind ((same rest behind).mp accepted)
      rw [List.length_append, List.length_append]
      omega

end Prefixes

section Tokens

variable {Symbol Token : Type*} (next : List Symbol → Option (Token × List Symbol))

/-- Reads tokens until the function finds no more of them. -/
def scan : Nat → List Symbol → List Token
  | 0, _ => []
  | fuel + 1, text =>
      match next text with
      | none => []
      | some (token, rest) => token :: scan fuel rest

/-- The whole text reads as the tokens, each of which takes some of it. -/
inductive Reads : List Symbol → List Token → Prop where
  | done {text : List Symbol} : next text = none → Reads text []
  | token {text rest : List Symbol} {token : Token} {tokens : List Token} :
      next text = some (token, rest) → rest.length < text.length → Reads rest tokens →
        Reads text (token :: tokens)

/-- The chunk stands for the tokens before every text that may follow it. -/
def Chunk (follows : List Symbol → Prop) (chunk : List Symbol) (tokens : List Token) : Prop :=
  ∀ rest more, follows rest → Reads next rest more → Reads next (chunk ++ rest) (tokens ++ more)

variable {next}

theorem scan_eq_of_reads {text : List Symbol} {tokens : List Token}
    (reads : Reads next text tokens) {fuel : Nat} (enough : text.length ≤ fuel) :
    scan next fuel text = tokens := by
  induction reads generalizing fuel with
  | @done text nothing =>
      cases fuel with
      | zero => rfl
      | succ fuel => rw [scan, nothing]
  | @token text rest token tokens found shorter _ induction =>
      cases fuel with
      | zero => omega
      | succ fuel =>
          rw [scan, found]
          exact congrArg (token :: ·) (induction (by omega))

theorem chunk_nil {follows : List Symbol → Prop} : Chunk next follows [] [] :=
  fun _ _ _ reads => reads

theorem chunk_token {follows : List Symbol → Prop} {chunk : List Symbol} {token : Token}
    (nonempty : chunk ≠ [])
    (found : ∀ rest, follows rest → next (chunk ++ rest) = some (token, rest)) :
    Chunk next follows chunk [token] := by
  intro rest more following reads
  have positive := List.length_pos_iff.mpr nonempty
  exact Reads.token (found rest following) (by rw [List.length_append]; omega) reads

theorem Chunk.append {follows following : List Symbol → Prop} {first second : List Symbol}
    {tokens others : List Token} (head : Chunk next follows first tokens)
    (tail : Chunk next following second others)
    (joins : ∀ rest, following rest → follows (second ++ rest)) :
    Chunk next following (first ++ second) (tokens ++ others) := by
  intro rest more follow reads
  rw [List.append_assoc, List.append_assoc]
  exact head _ _ (joins rest follow) (tail rest more follow reads)

theorem Chunk.skip {follows : List Symbol → Prop} {chunk : List Symbol} {tokens : List Token}
    {symbol : Symbol} (skipped : ∀ text, next (symbol :: text) = next text)
    (reads : Chunk next follows chunk tokens) : Chunk next follows (symbol :: chunk) tokens := by
  intro rest more follow later
  have inner := reads rest more follow later
  rw [List.cons_append]
  generalize chunk ++ rest = text at inner
  generalize tokens ++ more = read at inner
  cases inner with
  | done nothing => exact Reads.done (by rw [skipped, nothing])
  | token found shorter tail =>
      exact Reads.token (by rw [skipped, found]) (by rw [List.length_cons]; omega) tail

theorem Chunk.reads {follows : List Symbol → Prop} {chunk : List Symbol} {tokens : List Token}
    (reads : Chunk next follows chunk tokens) (last : follows []) (ends : next [] = none) :
    Reads next chunk tokens := by
  have whole := reads [] [] last (Reads.done ends)
  rwa [List.append_nil, List.append_nil] at whole

end Tokens

end Scanning
