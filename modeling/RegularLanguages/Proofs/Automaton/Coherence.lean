import RegularLanguages.Proofs.Automaton.Lift
import RegularLanguages.Proofs.Automaton.Memo

/-!
# The table of closures is never out of date

A program works on a row of automata: it makes new ones, edits them, copies them, joins them and
asks them questions, in any order. A question fills the table of closures of its automaton, and a
copy starts with the table of what it was copied from. So an edit may find a table that was made for
other edges, or for fewer states.

`Coherent` is the invariant: a table that is there is the table of the present edges. Every
operation keeps it for every automaton of the row (`coherent_apply`), hence every program does.
`runPlain` runs a program on automata without tables, where a question does nothing. Both runs have
the same automata, and the answers that are read off the tables are those of the automata without
tables.
-/

namespace RegularLanguages

/-! ## Questions -/

/-- A question that is answered with the closures of states at hand. -/
inductive Question where
  | closure (states : StateSet)
  | startClosure
  | step (states : StateSet) (number : Nat)
  | acceptsSymbols (ids : List Nat)
  | accepts (word : String)

/-- The members of a set of states, or a decision. -/
inductive Answer where
  | members (states : List Nat)
  | decision (yes : Bool)
  deriving DecidableEq, Repr

/-- The answer of an automaton, with every closure searched for anew. -/
def Automaton.answer (m : Automaton) : Question → Answer
  | .closure states => .members (m.closure states).toList
  | .startClosure => .members m.startClosure.toList
  | .step states number => .members (m.step states number).toList
  | .acceptsSymbols ids => .decision (m.acceptsSymbols ids)
  | .accepts word => .decision (m.accepts word)

/-- The answer by the table, and the automaton afterwards. -/
def Memo.reply (m : Memo) : Question → Answer × Memo
  | .closure states => (m.closure states).map (.members ·.toList) id
  | .startClosure => m.startClosure.map (.members ·.toList) id
  | .step states number => (m.step states number).map (.members ·.toList) id
  | .acceptsSymbols ids => (m.acceptsSymbols ids).map .decision id
  | .accepts word => (m.accepts word).map .decision id

/-! ## Programs -/

/-- A change of one automaton by itself. -/
inductive Edit where
  | addState
  | setStart (q : Nat)
  | addTransition (source : Nat) (label : Label) (target : Nat)
  | addAccepting (q : Nat)
  | clearAccepting

def Automaton.edit (m : Automaton) : Edit → Automaton
  | .addState => m.addState
  | .setStart q => m.setStart q
  | .addTransition source label target => m.addTransition source label target
  | .addAccepting q => m.addAccepting q
  | .clearAccepting => m.clearAccepting

def Memo.edit (m : Memo) : Edit → Memo
  | .addState => m.addState
  | .setStart q => m.setStart q
  | .addTransition source label target => m.addTransition source label target
  | .addAccepting q => m.addAccepting q
  | .clearAccepting => m.clearAccepting

/-- What is made from one automaton, which stays as it is. -/
inductive Variation where
  | copy
  | relabel (alphabet : Alphabet)
  | power (count : Nat)

def Automaton.vary (m : Automaton) : Variation → Automaton
  | .copy => m
  | .relabel alphabet => m.relabel alphabet
  | .power count => m.power count

/-- A copy comes with the table. -/
def Memo.vary (m : Memo) : Variation → Memo
  | .copy => m
  | .relabel alphabet => m.relabel alphabet
  | .power count => m.power count

/-- One operation of a program. Automata are named by their places in the row; a new one is put at
the end. -/
inductive Operation where
  | create (alphabet : Alphabet)
  | edit (i : Nat) (change : Edit)
  | embed (i j : Nat)
  | vary (i : Nat) (variation : Variation)
  | concat (i j : Nat)
  | ask (i : Nat) (question : Question)

namespace Operation

/-- Whether the operation is a question. -/
def isQuestion : Operation → Bool
  | ask .. => true
  | _ => false

/-- The row of automata after an operation. Nothing happens if there is no automaton at a place. -/
def applyPlain (row : List Automaton) : Operation → List Automaton
  | create alphabet => row ++ [.ofStart alphabet]
  | edit i change => row.modify i (·.edit change)
  | embed i j => row[j]?.elim row fun other => row.modify i (·.embed other)
  | vary i variation => row ++ (row[i]?.map (·.vary variation)).toList
  | concat i j => row ++ (row[i]?.bind fun a => row[j]?.map fun b => a.concat b).toList
  | ask .. => row

/-- The same for automata with tables. A question may fill the table. -/
def apply (row : List Memo) : Operation → List Memo
  | create alphabet => row ++ [.ofStart alphabet]
  | edit i change => row.modify i (·.edit change)
  | embed i j => row[j]?.elim row fun other => row.modify i (·.embed other.automaton)
  | vary i variation => row ++ (row[i]?.map (·.vary variation)).toList
  | concat i j => row ++ (row[i]?.bind fun a => row[j]?.map fun b => a.concat b).toList
  | ask i question => row.modify i fun m => (m.reply question).2

end Operation

/-- The automata that a program makes. -/
def runPlain (program : List Operation) : List Automaton := program.foldl Operation.applyPlain []

/-- The automata that a program makes, with their tables. -/
def Memo.run (program : List Operation) : List Memo := program.foldl Operation.apply []

namespace Memo

variable {m a b : Memo}

/-! ## What stays the same without tables -/

theorem automaton_edit (m : Memo) (change : Edit) :
    (m.edit change).automaton = m.automaton.edit change := by
  cases change <;> rfl

theorem automaton_embed (m : Memo) (other : Automaton) :
    (m.embed other).automaton = m.automaton.embed other := rfl

theorem automaton_relabel (m : Memo) (alphabet : Alphabet) :
    (m.relabel alphabet).automaton = m.automaton.relabel alphabet := by
  unfold relabel
  split
  · next h => rw [h, Automaton.relabel_self]
  · rfl

theorem automaton_addEpsilons (m : Memo) (sources : List Nat) (target : Nat) :
    (m.addEpsilons sources target).automaton = m.automaton.addEpsilons sources target := by
  induction sources generalizing m with
  | nil => rfl
  | cons q rest ih => exact ih (m.addTransition q .epsilon target)

theorem automaton_addAllAccepting (m : Memo) (qs : List Nat) :
    (m.addAllAccepting qs).automaton = m.automaton.addAllAccepting qs := by
  induction qs generalizing m with
  | nil => rfl
  | cons q rest ih => exact ih (m.addAccepting q)

theorem automaton_concat (a b : Memo) :
    (a.concat b).automaton = a.automaton.concat b.automaton := by
  have hleft : (a.relabel (Automaton.align a.automaton b.automaton).1.alphabet).automaton =
      (Automaton.align a.automaton b.automaton).1 := by
    rw [automaton_relabel]
    unfold Automaton.align
    split
    · exact Automaton.relabel_self _
    · rw [Automaton.alphabet_relabel]
  simp only [concat, automaton_addAllAccepting, automaton_addEpsilons, embed, clearAccepting, hleft]
  rfl

theorem automaton_appendCopies (a : Automaton) (n : Nat) (row : Memo) (ends : List Nat) :
    (appendCopies a n row ends).automaton =
      (Automaton.Layout.appendCopies a n ⟨row.automaton, ends⟩).close := by
  induction n generalizing row ends with
  | zero => exact automaton_addAllAccepting row ends
  | succ n ih =>
    rw [appendCopies, ih, automaton_addEpsilons]
    rfl

theorem automaton_power (a : Memo) (count : Nat) :
    (a.power count).automaton = a.automaton.power count := by
  cases count with
  | zero => rfl
  | succ n => exact automaton_appendCopies a.automaton n a.clearAccepting _

theorem automaton_vary (m : Memo) (variation : Variation) :
    (m.vary variation).automaton = m.automaton.vary variation := by
  cases variation with
  | copy => rfl
  | relabel alphabet => exact automaton_relabel m alphabet
  | power count => exact automaton_power m count

/-- A question fills the table, unless it can be answered without closures. -/
theorem reply_snd (m : Memo) (question : Question) :
    (m.reply question).2 = { m with table := some m.closures } ∨ (m.reply question).2 = m := by
  cases question with
  | closure states => exact Or.inl rfl
  | startClosure => exact Or.inl rfl
  | step states number => exact Or.inl rfl
  | acceptsSymbols ids => exact Or.inl rfl
  | accepts word =>
    rw [reply, accepts]
    cases m.automaton.alphabet.encode? word with
    | some ids => exact Or.inl rfl
    | none => exact Or.inr rfl

/-- A question changes nothing but the table. -/
theorem automaton_reply (m : Memo) (question : Question) :
    (m.reply question).2.automaton = m.automaton := by
  rcases reply_snd m question with h | h <;> rw [h]

/-! ## Coherent tables -/

/-- If there is a table, it is the table of the closures along the present edges. -/
def Coherent (m : Memo) : Prop := ∀ table, m.table = some table → table = closuresOf m.automaton

theorem coherent_of_table_eq_none (h : m.table = none) : m.Coherent := by
  intro table htable
  rw [h] at htable
  cases htable

theorem coherent_ofAutomaton (m : Automaton) : (ofAutomaton m).Coherent :=
  coherent_of_table_eq_none rfl

theorem coherent_embed (m : Memo) (other : Automaton) : (m.embed other).Coherent :=
  coherent_of_table_eq_none rfl

namespace Coherent

theorem closures_eq (h : m.Coherent) : m.closures = closuresOf m.automaton := by
  unfold closures
  cases htable : m.table with
  | some table => exact h table htable
  | none => rfl

/-- An edit of the states or edges throws the table away; the other edits do not touch what the
table depends on. -/
theorem edit (h : m.Coherent) (change : Edit) : (m.edit change).Coherent := by
  cases change with
  | addState => exact coherent_of_table_eq_none rfl
  | setStart q => exact h
  | addTransition source label target => exact coherent_of_table_eq_none rfl
  | addAccepting q => exact h
  | clearAccepting => exact h

theorem relabel (h : m.Coherent) (alphabet : Alphabet) : (m.relabel alphabet).Coherent := by
  unfold Memo.relabel
  split
  · exact h
  · exact coherent_ofAutomaton _

theorem addEpsilons (h : m.Coherent) (sources : List Nat) (target : Nat) :
    (m.addEpsilons sources target).Coherent := by
  induction sources generalizing m with
  | nil => exact h
  | cons q rest ih => exact ih (h.edit (.addTransition q .epsilon target))

theorem addAllAccepting (h : m.Coherent) (qs : List Nat) : (m.addAllAccepting qs).Coherent := by
  induction qs generalizing m with
  | nil => exact h
  | cons q rest ih => exact ih (h.edit (.addAccepting q))

theorem appendCopies (h : m.Coherent) (a : Automaton) (n : Nat) (ends : List Nat) :
    (appendCopies a n m ends).Coherent := by
  induction n generalizing m ends with
  | zero => exact h.addAllAccepting ends
  | succ n ih => exact ih ((coherent_embed m a).addEpsilons ends _) _

/-- A single copy keeps the table of the operand, since it has its edges. -/
theorem power (h : m.Coherent) (count : Nat) : (m.power count).Coherent := by
  cases count with
  | zero => exact coherent_ofAutomaton _
  | succ n => exact (h.edit .clearAccepting).appendCopies _ n _

theorem vary (h : m.Coherent) (variation : Variation) : (m.vary variation).Coherent := by
  cases variation with
  | copy => exact h
  | relabel alphabet => exact h.relabel alphabet
  | power count => exact h.power count

theorem reply (h : m.Coherent) (question : Question) : (m.reply question).2.Coherent := by
  rcases reply_snd m question with hfilled | hsame
  · rw [hfilled]
    intro table htable
    rw [← Option.some.inj htable, h.closures_eq]
  · rwa [hsame]

/-- **A coherent table gives the answers of the automaton.** -/
theorem reply_fst (h : m.Coherent) (question : Question) :
    (m.reply question).1 = m.automaton.answer question := by
  cases question with
  | closure states =>
    simp only [Memo.reply, closure, ask, Prod.map, h.closures_eq, toList_closureIn]
    rfl
  | startClosure =>
    simp only [Memo.reply, startClosure, ask, Prod.map, h.closures_eq, toList_closureIn]
    rfl
  | step states number =>
    simp only [Memo.reply, step, ask, Prod.map, h.closures_eq, toList_stepIn rfl]
    rfl
  | acceptsSymbols ids => exact congrArg Answer.decision (acceptsSymbols_fst h.closures_eq ids)
  | accepts word => exact congrArg Answer.decision (accepts_fst h.closures_eq word)

end Coherent

/-- The table that comes with the copy of the left operand is thrown away when the right operand is
put behind it. -/
theorem coherent_concat (a b : Memo) : (a.concat b).Coherent :=
  ((coherent_embed _ _).addEpsilons _ _).addAllAccepting _

/-! ## Rows of automata -/

variable {row : List Memo}

/-- **An operation keeps all tables coherent.** -/
theorem coherent_apply (h : ∀ m ∈ row, m.Coherent) (operation : Operation) :
    ∀ m ∈ operation.apply row, m.Coherent := by
  cases operation with
  | create alphabet =>
    exact List.forall_mem_append.mpr ⟨h, List.forall_mem_singleton.mpr (coherent_ofAutomaton _)⟩
  | edit i change => exact forall_mem_modify i h fun m hm => hm.edit change
  | embed i j =>
    rw [Operation.apply]
    cases row[j]? with
    | none => exact h
    | some other => exact forall_mem_modify i h fun m _ => coherent_embed m other.automaton
  | vary i variation =>
    refine List.forall_mem_append.mpr ⟨h, fun m hm => ?_⟩
    obtain ⟨a, ha, rfl⟩ := Option.map_eq_some_iff.mp (Option.mem_toList.mp hm)
    exact (h a (List.mem_of_getElem? ha)).vary variation
  | concat i j =>
    refine List.forall_mem_append.mpr ⟨h, fun m hm => ?_⟩
    obtain ⟨a, -, hm⟩ := Option.bind_eq_some_iff.mp (Option.mem_toList.mp hm)
    obtain ⟨b, -, rfl⟩ := Option.map_eq_some_iff.mp hm
    exact coherent_concat a b
  | ask i question => exact forall_mem_modify i h fun m hm => hm.reply question

/-- **An operation does to the automata what it does without tables.** -/
theorem map_automaton_apply (row : List Memo) (operation : Operation) :
    (operation.apply row).map automaton = operation.applyPlain (row.map automaton) := by
  cases operation with
  | create alphabet => exact List.map_append
  | edit i change => exact map_modify _ (automaton_edit · change) row i
  | embed i j =>
    rw [Operation.apply, Operation.applyPlain, List.getElem?_map]
    cases row[j]? with
    | none => rfl
    | some other =>
      rw [Option.map_some, Option.elim_some, Option.elim_some]
      exact map_modify _ (automaton_embed · other.automaton) row i
  | vary i variation =>
    rw [Operation.apply, Operation.applyPlain, List.getElem?_map, List.map_append]
    cases row[i]? with
    | none => rfl
    | some a => simp [automaton_vary]
  | concat i j =>
    rw [Operation.apply, Operation.applyPlain, List.getElem?_map, List.getElem?_map,
      List.map_append]
    cases row[i]? with
    | none => rfl
    | some a =>
      cases row[j]? with
      | none => rfl
      | some b => simp [automaton_concat]
  | ask i question =>
    exact (map_modify id (automaton_reply · question) row i).trans (List.modify_id i _)

/-! ## Programs -/

theorem coherent_run (program : List Operation) : ∀ m ∈ run program, m.Coherent := by
  have hrun : ∀ row : List Memo, (∀ m ∈ row, m.Coherent) →
      ∀ m ∈ program.foldl Operation.apply row, m.Coherent := by
    induction program with
    | nil => exact fun _ h => h
    | cons operation rest ih => exact fun _ h => ih _ (coherent_apply h operation)
  exact hrun [] (by simp)

/-- A program makes the automata that it makes without tables and without questions. -/
theorem map_automaton_run (program : List Operation) :
    (run program).map automaton = runPlain (program.filter (!·.isQuestion)) := by
  have hrun : ∀ row : List Memo, (program.foldl Operation.apply row).map automaton =
      (program.filter (!·.isQuestion)).foldl Operation.applyPlain (row.map automaton) := by
    induction program with
    | nil => exact fun _ => rfl
    | cons operation rest ih =>
      intro row
      rw [List.foldl_cons, ih, map_automaton_apply]
      cases operation <;> rfl
  exact hrun []

/-- **The table of closures is never out of date.** Whatever a program did before, the table of each
automaton, if there is one, has an entry for every state and for nothing else, and this is the
closure of the state along the edges that the automaton has now. The automata are those of the
program without its questions, run without tables. Every question is answered as it is without a
table, so it does not matter what was asked before. -/
theorem tables_up_to_date (program : List Operation) :
    (∀ m ∈ run program, ∀ table, m.table = some table →
        table.size = m.automaton.numStates ∧
          ∀ q < m.automaton.numStates, table[q]? = some (m.automaton.closureOf q)) ∧
      (run program).map automaton = runPlain (program.filter (!·.isQuestion)) ∧
      ∀ m ∈ run program, ∀ question, (m.reply question).1 = m.automaton.answer question := by
  refine ⟨fun m hm table htable => ?_, map_automaton_run program,
    fun m hm question => (coherent_run program m hm).reply_fst question⟩
  rw [coherent_run program m hm table htable]
  refine ⟨by simp [closuresOf], fun q hq => ?_⟩
  simp [closuresOf, hq]

/-- The case of an automaton that gets a new transition after it was asked and copied, of the copy,
which keeps the table, and of the two joined. -/
theorem tables_up_to_date_after_questions :
    let program : List Operation := [.create (.ofChars ['a']), .edit 0 .addState,
      .ask 0 .startClosure, .vary 0 .copy, .edit 0 (.addTransition 0 .epsilon 1),
      .ask 0 .startClosure, .edit 1 (.addAccepting 0), .concat 1 0, .ask 2 .startClosure]
    (run program).map (·.table.isSome) = [true, true, true] ∧
      (∀ m ∈ run program, ∀ table, m.table = some table →
        table.size = m.automaton.numStates ∧
          ∀ q < m.automaton.numStates, table[q]? = some (m.automaton.closureOf q)) ∧
      (run program).map (fun m => (m.reply .startClosure).1) =
        [.members [0, 1], .members [0], .members [0, 2, 3]] := by
  intro program
  obtain ⟨htables, hplain, hreplies⟩ := tables_up_to_date program
  have hfilled : (run program).map (·.table.isSome) = [true, true, true] := by rfl
  let start := (Automaton.ofStart (.ofChars ['a'])).addState
  let edited := start.addTransition 0 .epsilon 1
  let copied := start.addAccepting 0
  have hrow : runPlain (program.filter (!·.isQuestion)) =
      [edited, copied, copied.concatAligned edited] := by rfl
  have hanswers : [edited, copied, copied.concatAligned edited].map (·.answer .startClosure) =
      [.members [0, 1], .members [0], .members [0, 2, 3]] := by cbv
  refine ⟨hfilled, htables, ?_⟩
  calc (run program).map (fun m => (m.reply .startClosure).1)
      = (run program).map (fun m => m.automaton.answer .startClosure) :=
        List.map_congr_left fun m hm => hreplies m hm .startClosure
    _ = ((run program).map automaton).map (·.answer .startClosure) := by
        rw [List.map_map]
        rfl
    _ = [.members [0, 1], .members [0], .members [0, 2, 3]] := by rw [hplain, hrow, hanswers]

end Memo

end RegularLanguages
