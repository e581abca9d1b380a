import ConcurrentProgramming.Framework.InputStream
import ConcurrentProgramming.Project1.HandshakeProgress
import ConcurrentProgramming.Project1.TriePrefixes
import Mathlib.Algebra.Group.Nat.Defs

/-! # The Whole Program (`main.cc`)

    `main` reads the number of words and the words, creates its workers, prints `R`, and
    then reads one command after the other until the input ends.  A command is a
    letter, a character that is skipped, and the rest of the line.

    What the program is for is `answers`: a set of words is kept, and for a query the
    words of the set that occur in it are listed, each once, by where it occurs first
    and then by its length.  The input that stands for a list of words and a list of
    requests is `input_text`.
-/

namespace Project1.Program

open LTS InputStream Decimal Handshake

/-! ## Section 1: The code of `main` -/

/-- The index `c - 'a'` in `chars`, if there is one. -/
def to_letter (c : Char) : Option Letter :=
  if h : 'a'.toNat ≤ c.toNat ∧ c.toNat - 'a'.toNat < ALPHA_NUM then some ⟨_, h.2⟩ else none

/-- A string as a word.  Strings with other characters are outside of this model. -/
def to_word (str : List Char) : Option (List Letter) := str.mapM to_letter

/-- `main` and its workers. -/
structure Process where
  cin               : Stream
  str_buffer        : List Char
  root              : trie
  word_id_generator : UInt32
  shared            : State
  /-- `main` has returned -1. -/
  exited            : Bool

namespace Process

/-- `insert(&root, str_buffer.c_str())`. -/
def add (s : Process) : Option Process := do
  let word ← to_word s.str_buffer
  let root ← (insert s.word_id_generator s.root word).toOption
  return { s with root := root, word_id_generator := s.word_id_generator + 1 }

/-- `erase(&root, str_buffer.c_str())`, and the root is created again if need be. -/
def delete (s : Process) : Option Process := do
  let word ← to_word s.str_buffer
  let (_, root) ← (erase s.root word).toOption
  return { s with root := root.or_create }

/-- `search_all_patterns(root, str_buffer.c_str(), str_buffer.length())`. -/
def query (s : Process) : Option Process := do
  let word ← to_word s.str_buffer
  return { s with shared := s.shared.begin_query s.root word }

/-- The loop that reads the words, for the number of words that are left. -/
def read_words : ℕ → Process → Option Process
  | 0, s => some s
  | n + 1, s => do
      let (cin, str_buffer) := s.cin.read_string s.str_buffer
      let s ← { s with cin := cin, str_buffer := str_buffer }.add
      read_words n s

/-- `main` up to the loop that creates the threads. -/
def start (input : List Char) : Option Process :=
  let (cin, number_of_strings) := (Stream.of input).read_int 0
  read_words number_of_strings.toNat ⟨cin, [], create_trie_node, 1, .start, false⟩

/-- `switch (cmd)`. -/
def dispatch (s : Process) (cmd : Char) : Option Process :=
  match cmd with
  | 'Q' => s.query
  | 'A' => s.add
  | 'D' => s.delete
  | _ => some { s with exited := true }

/-- One round of the loop over the commands, up to the threads' part of a query. -/
def read_command (s : Process) : Option Process :=
  match s.cin.read_char with
  | (cin, none) =>
      some { s with cin := cin, shared := { s.shared.go (.stop 0) with finished := true } }
  | (cin, some cmd) =>
      let (cin, str_buffer) := cin.get.getline s.str_buffer
      { s with cin := cin, str_buffer := str_buffer }.dispatch cmd

end Process

inductive Label where
  | main
  | worker (tid : ℕ)
  | spurious (tid : ℕ)

/-- A step while the process runs. -/
def Process.run (s : Process) (sort : StdSort) : Label → Option Process
  | .main =>
      if s.shared.main = .command then s.read_command
      else (s.shared.main_step sort).map fun p => { s with shared := p }
  | .worker tid => (s.shared.worker_step tid).map fun p => { s with shared := p }
  | .spurious tid => (s.shared.wake_spuriously tid).map fun p => { s with shared := p }

def Process.perform (s : Process) (sort : StdSort) (l : Label) : Option Process :=
  if s.exited then none else s.run sort l

/-- The program on the given input. -/
def executions (sort : StdSort) (input : List Char) : System Process Label where
  init := fun s => Process.start input = some s
  step := fun s l s' => s.perform sort l = some s'

/-- The step is no wake-up without a signal. -/
def not_spurious (_ : Process) : Label → Prop
  | .spurious _ => False
  | _ => True

/-- The runs without spurious wake-ups. -/
def regular_executions (sort : StdSort) (input : List Char) : System Process Label :=
  (executions sort input).restrict not_spurious

/-- `main` creates its threads. -/
def creating : MainPoint → Bool
  | .reset_new _ | .create _ | .await_new _ => true
  | _ => false

/-- What has been printed. -/
def Process.stdout (s : Process) : String :=
  if creating s.shared.main then ""
  else
    "R\n" ++ String.join s.shared.output ++
      (if s.exited then "(in switch) Default case is not exist.\n\n" else "")

/-- All threads have been joined. -/
def Process.ended (s : Process) : Prop := s.shared.main = .join THREAD_NUM

/-! ## Section 2: What the program is for -/

inductive Request where
  | query (str : List Letter)
  | add (word : List Letter)
  | delete (word : List Letter)
  deriving DecidableEq, Repr

/-- By the start of the first occurrence in the query, and then by length. -/
def earlier (query v w : List Letter) : Prop :=
  first_start query v < first_start query w ∨
    first_start query v = first_start query w ∧ v.length ≤ w.length

instance decidable_earlier (query : List Letter) : DecidableRel (earlier query) :=
  fun v w => inferInstanceAs (Decidable (first_start query v < first_start query w ∨
    first_start query v = first_start query w ∧ v.length ≤ w.length))

/-- The words that occur in the query, each once. -/
def occurring (words : List (List Letter)) (query : List Letter) : List (List Letter) :=
  (words.dedup.filter fun word => word <:+: query).insertionSort (earlier query)

/-- The answers to all queries. -/
def answers : List (List Letter) → List Request → List String
  | _, [] => []
  | words, .query str :: requests => render (occurring words str) :: answers words requests
  | words, .add word :: requests => answers (word :: words) requests
  | words, .delete word :: requests => answers (words.filter (· ≠ word)) requests

/-- Where these words occur in the query. -/
def places (words : List (List Letter)) (query : List Letter) : List (ℕ × ℕ) :=
  (positions query).filter fun p => substring query p ∈ words

/-- Requests that the program can deal with: the length of a query and the number of
    places where stored words occur in it fit into 32 bits, words are not empty, and a
    word that is to be deleted is stored, or no stored word begins with it. -/
def admissible : List (List Letter) → List Request → Prop
  | _, [] => True
  | words, .query str :: requests =>
      (str.length < 2 ^ 32 ∧ (places words str).length < 2 ^ 32) ∧ admissible words requests
  | words, .add word :: requests => word ≠ [] ∧ admissible (word :: words) requests
  | words, .delete word :: requests =>
      (word ≠ [] ∧ (word ∈ words ∨ ∀ v ∈ words, ¬ word <+: v)) ∧
        admissible (words.filter (· ≠ word)) requests

instance decidable_admissible :
    ∀ (words : List (List Letter)) (requests : List Request), Decidable (admissible words requests)
  | _, [] => inferInstanceAs (Decidable True)
  | words, .query _ :: requests => @instDecidableAnd _ _ _ (decidable_admissible words requests)
  | words, .add word :: requests =>
      @instDecidableAnd _ _ _ (decidable_admissible (word :: words) requests)
  | words, .delete word :: requests =>
      @instDecidableAnd _ _ _ (decidable_admissible (words.filter (· ≠ word)) requests)

def word_text (word : List Letter) : List Char :=
  word.map fun c => Char.ofNat ('a'.toNat + c.val)

def request_line : Request → List Char
  | .query str => 'Q' :: ' ' :: (word_text str ++ ['\n'])
  | .add word => 'A' :: ' ' :: (word_text word ++ ['\n'])
  | .delete word => 'D' :: ' ' :: (word_text word ++ ['\n'])

/-- The input for some words and some requests. -/
def input_text (words : List (List Letter)) (requests : List Request) : List Char :=
  print_nat words.length ++ '\n' ::
    (words.flatMap (fun word => word_text word ++ ['\n']) ++ requests.flatMap request_line)

/-- The output that is wanted. -/
def output_text (words : List (List Letter)) (requests : List Request) : String :=
  "R\n" ++ String.join (answers words requests)

end Project1.Program
