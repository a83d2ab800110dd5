import JackCompiler.Proofs.Mentions.Places

/-!
# The journal of reading

A source that is accepted has been scanned to its end, and the journal of reading it has the tokens
of the source in order, each of them once. Only the end is there twice: once as it comes into view
behind the last brace, and once as the window slides past the brace.
-/

namespace JackCompiler

open Production

/-! ## Passing over tokens -/

namespace View

variable {v v' : View} {us ts : List Token}

theorem Passes.kind_ne_finish (h : v.Passes us v') : ∀ t ∈ us, t.kind ≠ .finish := by
  induction h with
  | refl => exact List.forall_mem_nil _
  | step hk _ _ ih => exact List.forall_mem_cons.mpr ⟨hk, ih⟩

theorem next_advances (h : v.next = .ok v') : v.scanner.Advances v'.scanner := by
  unfold next at h
  split at h
  · next hnext =>
    cases h
    exact (Scanner.next_ok hnext).advances
  · cases h

theorem Passes.advances (h : v.Passes us v') : v.scanner.Advances v'.scanner := by
  induction h with
  | refl => exact .refl _
  | step _ hnext _ ih => exact (next_advances hnext).trans ih

/-- Behind the last token but the end, the end has been scanned once more. -/
theorem Passes.lookahead_of_finish (h : v.Passes us v') (hus : us ≠ []) (hahead : Ahead v ts none)
    (hk : v'.current.kind = .finish) :
    v'.scanner.rest = [] ∧ v'.lookahead = .finish v'.scanner.offset := by
  induction h generalizing ts with
  | refl => exact absurd rfl hus
  | @step v v₁ v₂ us hne hnext hrest ih =>
      obtain ⟨ws, -, hahead₁⟩ := hahead.next hne hnext
      by_cases hlast : us = []
      · -- The end was the lookahead before this token was passed, so nothing was left to scan.
        subst hlast
        cases hrest
        rw [next_current hnext] at hk
        cases hahead with
        | ended hfinish => exact absurd hfinish hne
        | more _ hlook _ => exact absurd hk hlook
        | last _ _ hnil =>
            rw [next, Scanner.next_of_rest_nil hnil] at hnext
            cases hnext
            exact ⟨hnil, rfl⟩
      · exact ih hlast hahead₁ hk

end View

/-! ## Sources -/

variable {source : String} {tree : ClassTree}

/-- Reading a source that is accepted moves a window from the first token to the end. -/
theorem readClass_moves (h : (readClass source).1 = .ok tree) :
    ∃ (w w' : Window) (us : List Token), w.Opened source ∧ Ahead w.view (tokensOf source) none ∧
      w.Moves us w' ∧ us ≠ [] ∧ w'.current.kind = .finish ∧ (readClass source).2 = w'.records := by
  have hfault : faultOf? source = none := by
    have hanswer := readClass_answer source
    rw [h] at hanswer
    cases hanswer with
    | accepted _ he => exact he
  obtain ⟨w, hslide, hopened, hahead⟩ := exists_slide hfault
  have hclass := (classMembers_reads (w.remaining + 1) fun _ => false).meets hopened.ready
    (Nat.lt_succ_self _) (.of_productive fun c => .last .finish c)
  rw [readClass, classTree_eq rfl, bind_ok hslide] at h ⊢
  unfold Meets at hclass
  generalize hr : classMembers w = r at hclass
  cases hclass with
  | error =>
      rw [bind_error hr] at h
      cases h
  | @ok c w' us hmoves hc _ =>
      rw [bind_ok hr, classEnd, get_bind] at h ⊢
      by_cases hmore : w'.hasMore = true
      · rw [if_pos hmore] at h
        cases h
      · rw [if_neg hmore]
        refine ⟨w, w', us, hopened, hahead, hmoves, ?_, ?_, rfl⟩
        · cases hc with
          | declared => exact List.cons_ne_nil _ _
        · simpa [Window.hasMore] using hmore

theorem parse_records (source : String) : (parse source).records = (readClass source).2 := by
  unfold parse
  split <;> next hr => rw [hr]

/-- The journal of reading a source that is accepted has the tokens of the source in order, and then
its end for the second time. Before the end no token is there twice. -/
theorem parse_ok_records (h : (parse source).outcome = .ok tree) :
    ∃ (ts : List Token) (eof : Token), tokensOf source = ts ++ [eof] ∧ eof.kind = .finish ∧
      (∀ t ∈ ts, t.kind ≠ .finish) ∧ ts.Nodup ∧
      (parse source).records.filter (fun r => r.level != .debug) =
        (tokensOf source ++ [eof]).map .scanned := by
  have hdecomposes := (parse_ok_writtenIn h).1
  rcases hr : (readClass source).1 with e | tree'
  · rw [parse_of_error hr] at h
    cases h
  · obtain ⟨w, w', us, hopened, hahead, hmoves, hus, hk, hrecords⟩ := readClass_moves hr
    obtain ⟨vs, hts, hbehind⟩ := hahead.passes hmoves.passes
    obtain ⟨rfl, -⟩ := hbehind.of_finish hk
    -- The end that was scanned last stands where the first one does: behind all bytes.
    have hcurrent : w'.current = .finish (byteCount source.toList) := by
      have hlast := hdecomposes.getLast?
      rw [hts, List.getLast?_concat] at hlast
      exact Option.some_inj.mp hlast
    have hlookahead : w'.lookahead = .finish (byteCount source.toList) := by
      obtain ⟨hrest, hlast⟩ := hmoves.passes.lookahead_of_finish hus hahead hk
      have hsize := hmoves.passes.advances.size_eq
      rw [hrest, byteCount_nil, Nat.add_zero] at hsize
      rw [← hopened.size_eq, hopened.ready.size_eq]
      exact hlast.trans (congrArg Token.finish hsize)
    refine ⟨us, w'.current, hts, hk, hmoves.passes.kind_ne_finish, ?_, ?_⟩
    · have hstarts := hdecomposes.starts_ascending
      rw [hts] at hstarts
      refine (List.pairwise_append.mp hstarts).1.imp fun hlt heq => ?_
      rw [heq] at hlt
      exact Nat.lt_irrefl _ hlt
    · have hseen := hmoves.tells [] hopened.tells
      rw [Window.Tells, hlookahead, ← hcurrent] at hseen
      rw [parse_records, hrecords, hseen, hts, List.nil_append, List.append_assoc]
      rfl

end JackCompiler
