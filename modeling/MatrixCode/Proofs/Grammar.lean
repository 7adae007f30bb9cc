import MatrixCode.Number.Reader
import MatrixCode.Text.Identifier

/-!
The grammar that scalar expressions are read with. Calls and question marks bind closest, then come
the unary signs, then casts, then products and quotients, and last sums and differences; the operators
between two operands group to the left. The grammar is unambiguous: a reader that looks at one
operator at a time finds every derivation, so a text has at most one tree.
-/

namespace MatrixCode
namespace Grammar

inductive Token where
  | word (text : String)
  | number (text : List Char)
  | opening
  | closing
  | comma
  | mark
  | plus
  | minus
  | star
  | slash
  /-- The double colon between the words of a path. -/
  | joint
  deriving DecidableEq, Repr

inductive Operation where
  | add
  | subtract
  | multiply
  | divide
  deriving DecidableEq, Repr

inductive Expression where
  | path (words : List String)
  | integer (value : Nat)
  | real (value : Float)
  | negate (a : Expression)
  | dereference (a : Expression)
  | cast (a : Expression) (type : String)
  | binary (op : Operation) (a b : Expression)
  | call (function : Expression) (arguments : List Expression)
  /-- The value of a computation that can fail. -/
  | attempt (a : Expression)

section Tokens

def symbol? : Char → Option Token
  | '(' => some .opening
  | ')' => some .closing
  | ',' => some .comma
  | '?' => some .mark
  | '+' => some .plus
  | '-' => some .minus
  | '*' => some .star
  | '/' => some .slash
  | _ => none

/-- The rest of a number: digits, letters and points, and a sign right behind the letter of an
exponent. -/
def numberTail (exponent : Bool) : List Char → List Char × List Char
  | [] => ([], [])
  | c :: cs =>
    if Identifier.isPart c || c == '.' || exponent && (c == '-' || c == '+') then
      ((numberTail (c == 'e' || c == 'E') cs).map (c :: ·) id)
    else ([], c :: cs)

theorem length_numberTail (exponent : Bool) (cs : List Char) :
    (numberTail exponent cs).2.length ≤ cs.length := by
  induction cs generalizing exponent with
  | nil => simp [numberTail]
  | cons c cs ih =>
      rw [numberTail]
      split
      · exact Nat.le_trans (ih _) (Nat.le_succ _)
      · exact Nat.le_refl _

/-- True where the text starts a comment. -/
def startsComment : List Char → Bool
  | '/' :: '/' :: _ | '/' :: '*' :: _ => true
  | _ => false

/-- The tokens of a text. Words and numbers are as long as they can be; comments have no tokens. -/
def lex : List Char → Option (List Token)
  | [] => some []
  | ':' :: ':' :: cs => (lex cs).map (.joint :: ·)
  | c :: cs =>
    if Blank.isBlank c then lex cs
    else if Identifier.isStart c then
      (lex (cs.dropWhile Identifier.isPart)).map
        (.word (String.ofList (c :: cs.takeWhile Identifier.isPart)) :: ·)
    else if c.isDigit then
      (lex (numberTail false cs).2).map (.number (c :: (numberTail false cs).1) :: ·)
    else if startsComment (c :: cs) then none
    else (symbol? c).bind fun symbol => (lex cs).map (symbol :: ·)
  termination_by cs => cs.length
  decreasing_by
    all_goals simp only [List.length_cons]
    · omega
    · omega
    · have := (List.dropWhile_sublist Identifier.isPart (l := cs)).length_le
      omega
    · have := length_numberTail false cs
      omega
    · omega

/-- A number without point and exponent is an integer. -/
def number? (text : List Char) : Option Expression :=
  match Reader.natural? text with
  | some n => some (.integer n)
  | none => (Reader.decimal? false text).map .real

end Tokens

/-- How strongly the parts of an expression hold together. -/
inductive Level where
  | sum
  | product
  | cast
  | unary
  | primary
  deriving DecidableEq, Repr

namespace Level

def rank : Level → Nat
  | sum => 0
  | product => 1
  | cast => 2
  | unary => 3
  | primary => 4

end Level

namespace Operation

def token : Operation → Token
  | add => .plus
  | subtract => .minus
  | multiply => .star
  | divide => .slash

def level : Operation → Level
  | add | subtract => .sum
  | multiply | divide => .product

/-- The level of the right operand. -/
def right : Operation → Level
  | add | subtract => .product
  | multiply | divide => .cast

theorem rank_right (op : Operation) : op.right.rank = op.level.rank + 1 := by
  cases op <;> rfl

end Operation

/-- The word of a cast. No path has it. -/
def castWord : String := "as"

def separated : List (List Token) → List Token
  | [] => []
  | [ts] => ts
  | ts :: us :: rest => ts ++ .comma :: separated (us :: rest)

def pathTokens : List String → List Token
  | [] => []
  | word :: rest => .word word :: rest.flatMap fun next => [.joint, .word next]

/-- The tokens make up the expression, with an outermost operator of the level or above. -/
inductive Derives : Level → List Token → Expression → Prop
  | path {words : List String} (nonempty : words ≠ []) (reserved : castWord ∉ words) :
      Derives .primary (pathTokens words) (.path words)
  | number {text : List Char} {e : Expression} (read : number? text = some e) :
      Derives .primary [.number text] e
  | group {ts : List Token} {e : Expression} (inner : Derives .sum ts e) :
      Derives .primary (.opening :: (ts ++ [.closing])) e
  | call {ts : List Token} {f : Expression} {arguments : List (List Token × Expression)}
      (function : Derives .primary ts f) (each : ∀ a ∈ arguments, Derives .sum a.1 a.2) :
      Derives .primary (ts ++ .opening :: (separated (arguments.map (·.1)) ++ [.closing]))
        (.call f (arguments.map (·.2)))
  | attempt {ts : List Token} {e : Expression} (inner : Derives .primary ts e) :
      Derives .primary (ts ++ [.mark]) (.attempt e)
  | negate {ts : List Token} {e : Expression} (inner : Derives .unary ts e) :
      Derives .unary (.minus :: ts) (.negate e)
  | dereference {ts : List Token} {e : Expression} (inner : Derives .unary ts e) :
      Derives .unary (.star :: ts) (.dereference e)
  | cast {ts : List Token} {e : Expression} (type : String) (inner : Derives .cast ts e) :
      Derives .cast (ts ++ [.word castWord, .word type]) (.cast e type)
  | binary {ts us : List Token} {a b : Expression} (op : Operation) (left : Derives op.level ts a)
      (right : Derives op.right us b) : Derives op.level (ts ++ op.token :: us) (.binary op a b)
  | lift {l m : Level} {ts : List Token} {e : Expression} (le : l.rank ≤ m.rank)
      (inner : Derives m ts e) : Derives l ts e

/-- The text, read as an expression, is the tree. -/
def Reads (text : String) (e : Expression) : Prop :=
  ∃ ts, lex text.toList = some ts ∧ Derives .sum ts e

section Parser

def pathTail : List Token → List String × List Token
  | .joint :: .word word :: rest => (pathTail rest).map (word :: ·) id
  | rest => ([], rest)

mutual

/-- Reads an expression that operators of rank `min` and above hold together, as far as it goes.
The first argument bounds how deep the reading goes. -/
def parse (depth min : Nat) (ts : List Token) : Option (Expression × List Token) :=
  match depth, ts with
  | depth + 1, .minus :: rest => do
    let (a, rest) ← parse depth Level.unary.rank rest
    extend depth min (.negate a) rest
  | depth + 1, .star :: rest => do
    let (a, rest) ← parse depth Level.unary.rank rest
    extend depth min (.dereference a) rest
  | depth + 1, .opening :: rest => do
    let (a, rest) ← parse depth Level.sum.rank rest
    match rest with
    | .closing :: rest => extend depth min a rest
    | _ => none
  | depth + 1, .number text :: rest => do extend depth min (← number? text) rest
  | depth + 1, .word word :: rest =>
    extend depth min (.path (word :: (pathTail rest).1)) (pathTail rest).2
  | _, _ => none
  termination_by structural depth

/-- Goes on behind an operand. -/
def extend (depth min : Nat) (a : Expression) (ts : List Token) :
    Option (Expression × List Token) :=
  match depth with
  | 0 => none
  | depth + 1 =>
    match ts with
    | .plus :: rest => between depth min .add a rest
    | .minus :: rest => between depth min .subtract a rest
    | .star :: rest => between depth min .multiply a rest
    | .slash :: rest => between depth min .divide a rest
    | .mark :: rest => extend depth min (.attempt a) rest
    | .opening :: .closing :: rest => extend depth min (.call a []) rest
    | .opening :: rest => do
      let (bs, rest) ← arguments depth rest
      extend depth min (.call a bs) rest
    | .word word :: .word type :: rest =>
      if word = castWord ∧ min ≤ Level.cast.rank then extend depth min (.cast a type) rest
      else some (a, .word word :: .word type :: rest)
    | rest => some (a, rest)
  termination_by structural depth

/-- Goes on behind an operand and an operator. -/
def between (depth min : Nat) (op : Operation) (a : Expression) (ts : List Token) :
    Option (Expression × List Token) :=
  match depth with
  | 0 => none
  | depth + 1 =>
    if min ≤ op.level.rank then do
      let (b, rest) ← parse depth op.right.rank ts
      extend depth min (.binary op a b) rest
    else some (a, op.token :: ts)
  termination_by structural depth

/-- Reads one argument or more, and the closing parenthesis. -/
def arguments (depth : Nat) (ts : List Token) : Option (List Expression × List Token) :=
  match depth with
  | 0 => none
  | depth + 1 => do
    let (a, rest) ← parse depth Level.sum.rank ts
    match rest with
    | .comma :: rest => do
      let (bs, rest) ← arguments depth rest
      return (a :: bs, rest)
    | .closing :: rest => return ([a], rest)
    | _ => none
  termination_by structural depth

end

/-- The reading has the result at every depth that is large enough. -/
def Gives {α : Type} (read : Nat → Option α) (r : α) : Prop :=
  ∃ least, ∀ depth, least ≤ depth → read depth = some r

namespace Gives

variable {α β : Type}

theorem const (r : α) : Gives (fun _ => some r) r := ⟨0, fun _ _ => rfl⟩

theorem of_succ {read : Nat → Option α} {r : α} (h : Gives (fun depth => read (depth + 1)) r) :
    Gives read r := by
  obtain ⟨least, h⟩ := h
  refine ⟨least + 1, fun depth le => ?_⟩
  obtain ⟨depth, rfl⟩ := Nat.exists_eq_add_of_le le
  rw [Nat.add_right_comm]
  exact h (least + depth) (Nat.le_add_right _ _)

theorem bind {read : Nat → Option α} {further : Nat → α → Option β} {a : α} {r : β}
    (h : Gives read a) (h' : Gives (fun depth => further depth a) r) :
    Gives (fun depth => (read depth).bind (further depth)) r := by
  obtain ⟨least, h⟩ := h
  obtain ⟨least', h'⟩ := h'
  refine ⟨Nat.max least least', fun depth le => ?_⟩
  simp only [h depth (Nat.le_trans (Nat.le_max_left _ _) le)]
  exact h' depth (Nat.le_trans (Nat.le_max_right _ _) le)

theorem unique {read : Nat → Option α} {r r' : α} (h : Gives read r) (h' : Gives read r') :
    r = r' := by
  obtain ⟨least, h⟩ := h
  obtain ⟨least', h'⟩ := h'
  have same := h _ (Nat.le_max_left least least')
  rw [h' _ (Nat.le_max_right least least')] at same
  exact (Option.some.inj same).symm

theorem ne_none {read : Nat → Option α} {r : α} (h : Gives read r) :
    ¬ ∀ depth, read depth = none := by
  obtain ⟨least, h⟩ := h
  intro never
  simpa [never] using h least (Nat.le_refl _)

end Gives

/-- The rank of the operator that the token is behind an operand. -/
def Token.strength? : Token → Option Nat
  | .plus | .minus => some Level.sum.rank
  | .star | .slash => some Level.product.rank
  | .word text => if text = castWord then some Level.cast.rank else none
  | .mark | .opening => some Level.primary.rank
  | .joint => some (Level.primary.rank + 1)
  | .number _ | .closing | .comma => none

/-- No operator that is stronger than the level follows. -/
def Ends (l : Level) (rest : List Token) : Prop :=
  ∀ t ∈ rest.head?, ∀ k ∈ t.strength?, k ≤ l.rank

theorem Ends.mono {l m : Level} {rest : List Token} (ends : Ends l rest) (le : l.rank ≤ m.rank) :
    Ends m rest := fun t ht k hk => Nat.le_trans (ends t ht k hk) le

theorem strength?_ne_unary (t : Token) : t.strength? ≠ some Level.unary.rank := by
  cases t with
  | word text =>
      simp only [Token.strength?]
      split <;> simp [Level.rank]
  | _ => simp [Token.strength?, Level.rank]

/-- Reading stops before an operator that is too weak. -/
theorem extend_gives_self {min : Nat} {rest : List Token} (a : Expression)
    (low : min ≤ Level.primary.rank) (weak : ∀ t ∈ rest.head?, ∀ k ∈ t.strength?, k < min) :
    Gives (extend · min a rest) (a, rest) := by
  have stop (op : Operation) (rest : List Token) (h : op.level.rank < min) (depth : Nat) :
      between (depth + 1) min op a rest = some (a, op.token :: rest) := by
    rw [between, if_neg (Nat.not_le_of_lt h)]
  refine .of_succ (.of_succ ⟨0, fun depth _ => ?_⟩)
  simp only [extend]
  split
  · exact stop .add _ (weak _ rfl _ rfl) depth
  · exact stop .subtract _ (weak _ rfl _ rfl) depth
  · exact stop .multiply _ (weak _ rfl _ rfl) depth
  · exact stop .divide _ (weak _ rfl _ rfl) depth
  · exact absurd (weak _ rfl _ rfl) (Nat.not_lt_of_le low)
  · exact absurd (weak _ rfl _ rfl) (Nat.not_lt_of_le low)
  · exact absurd (weak _ rfl _ rfl) (Nat.not_lt_of_le low)
  · refine if_neg fun ⟨word, high⟩ => ?_
    exact Nat.not_lt_of_le high (weak _ rfl _ (by simp [Token.strength?, word]))
  · rfl

theorem pathTail_append (words : List String) {rest : List Token} (ends : Ends .primary rest) :
    pathTail ((words.flatMap fun next => [.joint, .word next]) ++ rest) = (words, rest) := by
  induction words with
  | nil =>
      rw [List.flatMap_nil, List.nil_append, pathTail.eq_def]
      split
      · exact absurd (ends _ rfl _ rfl) (by decide)
      · rfl
  | cons word words ih =>
      change (pathTail
        ((words.flatMap fun next => [.joint, .word next]) ++ rest)).map (word :: ·) id = _
      rw [ih]
      rfl

/-- What has been derived is read, and reading goes on behind it. -/
def Found (l : Level) (ts : List Token) (e : Expression) : Prop :=
  ∀ ⦃min : Nat⦄ ⦃rest : List Token⦄ ⦃r : Expression × List Token⦄, min ≤ l.rank → Ends l rest →
    Gives (extend · min e rest) r → Gives (parse · min (ts ++ rest)) r

/-- A complete operand, where nothing follows that could belong to it. -/
theorem Found.gives {l : Level} {ts : List Token} {e : Expression} (found : Found l ts e)
    (rest : List Token) (weak : ∀ t ∈ rest.head?, ∀ k ∈ t.strength?, k < l.rank) :
    Gives (parse · l.rank (ts ++ rest)) (e, rest) := by
  refine found (Nat.le_refl _) (fun t ht k hk => Nat.le_of_lt (weak t ht k hk)) ?_
  exact extend_gives_self e (by cases l <;> decide) weak

theorem found_path {words : List String} (nonempty : words ≠ []) :
    Found .primary (pathTokens words) (.path words) := by
  intro min rest r _ ends extended
  refine .of_succ ?_
  cases words with
  | nil => contradiction
  | cons word words =>
      simp only [pathTokens, List.cons_append, parse, pathTail_append words ends]
      exact extended

theorem found_number {text : List Char} {e : Expression} (read : number? text = some e) :
    Found .primary [.number text] e := by
  intro min rest r _ _ extended
  refine .of_succ ?_
  simp only [List.singleton_append, parse, read]
  exact extended

theorem Found.group {ts : List Token} {e : Expression} (inner : Found .sum ts e) :
    Found .primary (.opening :: (ts ++ [.closing])) e := by
  intro min rest r _ _ extended
  have read := inner.gives (.closing :: rest) (by simp [Token.strength?])
  refine .of_succ ?_
  simp only [List.cons_append, List.append_assoc, List.nil_append, parse]
  exact read.bind extended

theorem Found.attempt {ts : List Token} {e : Expression} (inner : Found .primary ts e) :
    Found .primary (ts ++ [.mark]) (.attempt e) := by
  intro min rest r low _ extended
  rw [List.append_assoc, List.singleton_append]
  refine inner low (by simp [Ends, Token.strength?]) (.of_succ ?_)
  simp only [extend]
  exact extended

/-- Behind a unary sign only the operators follow that bind closer than it. -/
theorem Found.gives_unary {ts rest : List Token} {e : Expression} (inner : Found .unary ts e)
    (ends : Ends .unary rest) : Gives (parse · Level.unary.rank (ts ++ rest)) (e, rest) :=
  inner.gives rest fun t ht k hk =>
    Nat.lt_of_le_of_ne (ends t ht k hk) fun same => strength?_ne_unary t (same ▸ hk)

/-- A sign in front of an operand. -/
theorem Found.signed {ts : List Token} {e : Expression} {sign : Token} {build : Expression → Expression}
    (reads : ∀ depth min rest, parse (depth + 1) min (sign :: rest) =
      (parse depth Level.unary.rank rest).bind fun r => extend depth min (build r.1) r.2)
    (inner : Found .unary ts e) : Found .unary (sign :: ts) (build e) := by
  intro min rest r _ ends extended
  refine .of_succ ?_
  simp only [List.cons_append, reads]
  exact (inner.gives_unary ends).bind extended

theorem Found.cast {ts : List Token} {e : Expression} (type : String) (inner : Found .cast ts e) :
    Found .cast (ts ++ [.word castWord, .word type]) (.cast e type) := by
  intro min rest r low _ extended
  rw [List.append_assoc]
  refine inner low (by simp [Ends, Token.strength?]) (.of_succ ?_)
  simp only [List.cons_append, List.nil_append, extend, low, and_self, if_true]
  exact extended

theorem Found.binary {ts us : List Token} {a b : Expression} (op : Operation)
    (left : Found op.level ts a) (right : Found op.right us b) :
    Found op.level (ts ++ op.token :: us) (.binary op a b) := by
  intro min rest r low ends extended
  have read : Gives (parse · op.right.rank (us ++ rest)) (b, rest) :=
    right.gives rest fun t ht k hk => by
      have := ends t ht k hk
      rw [op.rank_right]
      omega
  have further : Gives (between · min op a (us ++ rest)) r := by
    refine .of_succ ?_
    simp only [between, if_pos low]
    exact read.bind extended
  rw [List.append_assoc, List.cons_append]
  cases op with
  | add | subtract | multiply | divide =>
      refine left low (by simp [Ends, Operation.token, Token.strength?, Operation.level]) ?_
      refine .of_succ ?_
      simp only [Operation.token, extend]
      exact further

theorem Found.lift {l m : Level} {ts : List Token} {e : Expression} (le : l.rank ≤ m.rank)
    (inner : Found m ts e) : Found l ts e := fun _ _ _ low ends extended =>
  inner (Nat.le_trans low le) (ends.mono le) extended

theorem arguments_separated {args : List (List Token × Expression)} (rest : List Token)
    (nonempty : args ≠ []) (each : ∀ a ∈ args, Found .sum a.1 a.2) :
    Gives (arguments · (separated (args.map (·.1)) ++ .closing :: rest))
      (args.map (·.2), rest) := by
  induction args with
  | nil => contradiction
  | cons a args ih =>
      obtain ⟨first, others⟩ := List.forall_mem_cons.mp each
      refine .of_succ ?_
      cases args with
      | nil =>
          have read := first.gives (.closing :: rest) (by simp [Token.strength?])
          simp only [List.map_cons, List.map_nil, separated, arguments]
          exact read.bind (.const _)
      | cons b args =>
          have ih := ih (by simp) others
          have read := first.gives
            (.comma :: (separated ((b :: args).map (·.1)) ++ .closing :: rest))
            (by simp [Token.strength?])
          simp only [List.map_cons, separated, List.append_assoc, List.cons_append,
            arguments] at read ih ⊢
          exact read.bind (ih.bind (.const _))

theorem Found.call {ts : List Token} {f : Expression} {args : List (List Token × Expression)}
    (function : Found .primary ts f) (each : ∀ a ∈ args, Found .sum a.1 a.2) :
    Found .primary (ts ++ .opening :: (separated (args.map (·.1)) ++ [.closing]))
      (.call f (args.map (·.2))) := by
  intro min rest r low _ extended
  rw [List.append_assoc, List.cons_append, List.append_assoc, List.singleton_append]
  refine function low (by simp [Ends, Token.strength?]) (.of_succ ?_)
  cases args with
  | nil =>
      simp only [List.map_nil, separated, List.nil_append, extend]
      exact extended
  | cons a args =>
      have read := arguments_separated rest (List.cons_ne_nil a args) each
      generalize separated ((a :: args).map (·.1)) ++ .closing :: rest = inside at read ⊢
      -- what starts with a closing parenthesis has no arguments
      have filled (us : List Token) : inside ≠ .closing :: us := by
        rintro rfl
        refine read.ne_none fun depth => ?_
        cases depth with
        | zero => rfl
        | succ depth => cases depth <;> rfl
      simp only [extend]
      exact read.bind extended

/-- The reader finds every derivation. -/
theorem Derives.found {l : Level} {ts : List Token} {e : Expression} (d : Derives l ts e) :
    Found l ts e := by
  induction d with
  | path nonempty _ => exact found_path nonempty
  | number read => exact found_number read
  | group _ ih => exact ih.group
  | call _ _ function each => exact function.call each
  | attempt _ ih => exact ih.attempt
  | negate _ ih | dereference _ ih => exact ih.signed fun _ _ _ => rfl
  | cast type _ ih => exact ih.cast type
  | binary op _ _ left right => exact left.binary op right
  | lift le _ ih => exact ih.lift le

end Parser

theorem Derives.unique {ts : List Token} {e e' : Expression} (d : Derives .sum ts e)
    (d' : Derives .sum ts e') : e = e' := by
  have read := d.found.gives [] (by simp)
  have read' := d'.found.gives [] (by simp)
  exact congrArg Prod.fst (read.unique read')

/-- A text has at most one tree. -/
theorem Reads.unique {text : String} {e e' : Expression} (r : Reads text e) (r' : Reads text e') :
    e = e' := by
  obtain ⟨ts, lexed, derived⟩ := r
  obtain ⟨ts', lexed', derived'⟩ := r'
  obtain rfl : ts = ts' := Option.some.inj (lexed.symm.trans lexed')
  exact derived.unique derived'

end Grammar
end MatrixCode
