import PropStories.Proofs.Disk

/-!
# Making directories from the outside in

Directories are made from the end of a path backwards until one is found. On a tree, behind a
directory that exists, this comes to the same as going inwards name by name.
-/

namespace PropStories

namespace Disk

variable {d d' : Disk} {p q : Place} {path outer : Path} {front : List PathPart} {base : Place}
  {names : List String} {n : String}

/-! ## Following names -/

theorem follow_append (d : Disk) (p : Place) (xs ys : List PathPart) :
    d.follow p (xs ++ ys) = d.follow p xs >>= fun q => d.follow q ys := by
  induction xs generalizing p with
  | nil => rfl
  | cons x xs ih =>
      cases x with
      | root => exact ih []
      | here => exact ih p
      | up =>
          simp only [List.cons_append, follow]
          split
          · exact ih _
          · rfl
          · rfl
      | name n =>
          simp only [List.cons_append, follow]
          split
          · split
            · rfl
            · exact ih _
          · rfl
          · rfl

theorem follow_name (directory : d.at? p = some .directory) (n : String) (rest : List PathPart) :
    d.follow p (.name n :: rest) =
      if nameLimit < n.utf8ByteSize then .error .nameTooLong else d.follow (p ++ [n]) rest := by
  rw [follow, directory]

theorem follow_names_eq (h : d.follow p (names.map .name) = .ok q) : q = p ++ names := by
  rw [follow_eq_reach h, reach_names]

theorem follow_congr
    (same : ∀ q, p <+: q → q <+: p ++ names → q ≠ p ++ names → d'.at? q = d.at? q) :
    d'.follow p (names.map .name) = d.follow p (names.map .name) := by
  induction names generalizing p with
  | nil => rfl
  | cons n rest ih =>
      have here := same p (List.prefix_refl p) (List.prefix_append p _) (by simp)
      have later := ih (p := p ++ [n]) fun q above below proper =>
        same q ((List.prefix_append p [n]).trans above) (by simpa using below) (by simpa using proper)
      rw [List.map_cons, follow, follow, here, later]

theorem follow_of_directories
    (directories : ∀ q, p <+: q → q <+: p ++ names → q ≠ p ++ names → d.at? q = some .directory) :
    d.follow p (names.map .name) =
      if names.any (nameLimit < ·.utf8ByteSize) then .error .nameTooLong else .ok (p ++ names) := by
  induction names generalizing p with
  | nil => simp [follow]
  | cons n rest ih =>
      have here := directories p (List.prefix_refl p) (List.prefix_append p _) (by simp)
      have later := ih (p := p ++ [n]) fun q above below proper =>
        directories q ((List.prefix_append p [n]).trans above) (by simpa using below)
          (by simpa using proper)
      rw [List.map_cons, follow_name here, later]
      by_cases long : nameLimit < n.utf8ByteSize
      · simp [long]
      · simp [long]

/-! ## Ways -/

/-- A path that leads to a directory, perhaps turning back on the way, and from there on by names
alone. -/
structure Leads (d : Disk) (path : Path) (front : List PathPart) (base : Place)
    (names : List String) : Prop where
  parts : path.parts = front ++ names.map .name
  reached : d.follow d.here front = .ok base
  directory : d.at? base = some .directory

namespace Leads

theorem destination (l : Leads d path front base names) : d.destination path = base ++ names := by
  rw [Disk.destination, l.parts, reach_append, reach_names, ← follow_eq_reach l.reached]

theorem follow (l : Leads d path front base names) :
    d.follow d.here path.parts = d.follow base (names.map .name) := by
  rw [l.parts, follow_append, l.reached]
  rfl

theorem parent (l : Leads d path front base (names ++ [n])) (h : path.parent? = some outer) :
    Leads d outer front base names where
  parts := by
    rw [Path.parts_parent? h, l.parts, List.map_append, ← List.append_assoc]
    exact List.dropLast_concat
  reached := l.reached
  directory := l.directory

theorem exists_parent (l : Leads d path front base (names ++ [n])) :
    ∃ outer, path.parent? = some outer := by
  cases h : path.parent? with
  | some outer => exact ⟨outer, rfl⟩
  | none =>
      rw [Path.parent?_eq_none_iff, l.parts] at h
      simp at h

theorem find (l : Leads d path front base names) (l' : Leads d' path front base names)
    (tree : d.IsTree) {e : Entry} (found : d'.find path = .ok e)
    (there : d.at? (base ++ names) = some e) : d.find path = .ok e := by
  obtain ⟨place, -, plain⟩ := find_eq_ok_iff.1 found
  obtain ⟨nonempty, noNul, way⟩ := placeOf_eq_ok_iff.1 place
  rw [l'.follow, l'.destination] at way
  have open_ := (tree.follow (by simp) (by simp) way (by simp [there])).1
  rw [find_eq_ok_iff, placeOf_eq_ok_iff, l.follow, l.destination]
  exact ⟨⟨nonempty, noNul, open_⟩, there, plain⟩

end Leads

/-! ## Going inwards -/

def pave (d : Disk) (p : Place) : List String → Disk × Except DiskError Unit
  | [] => (d, .ok ())
  | n :: rest =>
      if nameLimit < n.utf8ByteSize then (d, .error .nameTooLong)
      else match d.at? (p ++ [n]) with
        | some .directory => pave d (p ++ [n]) rest
        | none => pave (d.set (p ++ [n]) .directory) (p ++ [n]) rest
        | some (.file _) => (d, .error (if rest.isEmpty then .alreadyExists else .notADirectory))

theorem pave_concat (d : Disk) (p : Place) (names : List String) (n : String) :
    d.pave p (names ++ [n]) = match d.pave p names with
      | (d', .ok ()) => d'.pave (p ++ names) [n]
      | (d', .error e) => (d', .error (if e = .alreadyExists then .notADirectory else e)) := by
  induction names generalizing d p with
  | nil => simp [pave]
  | cons m rest ih =>
      rw [List.cons_append, pave, pave]
      split
      · rfl
      · split
        · simpa using ih d (p ++ [m])
        · simpa using ih (d.set (p ++ [m]) .directory) (p ++ [m])
        · cases rest <;> rfl

theorem pave_at (d : Disk) (p : Place) (names : List String) (q : Place) :
    (d.pave p names).1.at? q = d.at? q ∨
      d.at? q = none ∧ (d.pave p names).1.at? q = some .directory ∧ q <+: p ++ names := by
  induction names generalizing d p with
  | nil => exact .inl rfl
  | cons n rest ih =>
      rw [pave]
      split
      · exact .inl rfl
      · split
        · simpa using ih d (p ++ [n])
        next empty =>
          have made := ih (d.set (p ++ [n]) .directory) (p ++ [n])
          by_cases hq : q = p ++ [n]
          · subst hq
            rw [at?_set_self (by simp)] at made
            obtain same | ⟨nothing, -, -⟩ := made
            · exact .inr ⟨empty, same, by simp⟩
            · cases nothing
          · rw [at?_set_of_ne hq] at made
            simpa using made
        · exact .inl rfl

theorem pave_here (d : Disk) (p : Place) (names : List String) :
    (d.pave p names).1.here = d.here := by
  induction names generalizing d p with
  | nil => rfl
  | cons n rest ih =>
      rw [pave]
      split
      · rfl
      · split
        · exact ih d _
        · exact ih _ _
        · rfl

theorem IsTree.set (tree : d.IsTree) {e : Entry} (parent : d.at? p.dropLast = some .directory)
    (free : e = .directory ∨ d.at? p ≠ some .directory) (proper : p ≠ []) :
    (d.set p e).IsTree := by
  have apart : p.dropLast ≠ p := fun h => by
    have := congrArg List.length h
    have := List.length_pos_iff.2 proper
    rw [List.length_dropLast] at *
    omega
  intro q there
  by_cases hq : q = p
  · rw [hq, at?_set_of_ne apart, parent]
  · rw [at?_set_of_ne hq] at there
    have above := tree q there
    by_cases hp : q.dropLast = p
    · rw [hp] at above ⊢
      rw [at?_set_self proper]
      obtain rfl | other := free
      · rfl
      · exact absurd above other
    · rw [at?_set_of_ne hp, above]

theorem IsTree.remove (tree : d.IsTree) (file : d.at? p ≠ some .directory) :
    (d.remove p).IsTree := by
  have proper := ne_nil_of_at? file
  intro q there
  by_cases hq : q = p
  · rw [hq, at?_remove_self proper] at there
    exact absurd rfl there
  · rw [at?_remove_of_ne hq] at there
    have above := tree q there
    have hp : q.dropLast ≠ p := fun h => file (h ▸ above)
    rw [at?_remove_of_ne hp, above]

theorem IsTree.pave (tree : d.IsTree) (directory : d.at? p = some .directory)
    (names : List String) : (d.pave p names).1.IsTree := by
  induction names generalizing d p with
  | nil => exact tree
  | cons n rest ih =>
      rw [Disk.pave]
      split
      · exact tree
      · split
        next inside => exact ih tree inside
        next empty =>
          refine ih (tree.set ?_ (.inl rfl) (by simp)) (at?_set_self (by simp))
          rw [List.dropLast_concat, directory]
        next => exact tree

theorem pave_keeps (d : Disk) (p : Place) (names : List String)
    (directory : d.at? q = some .directory) : (d.pave p names).1.at? q = some .directory := by
  obtain same | ⟨empty, -, -⟩ := pave_at d p names q
  · rw [same, directory]
  · rw [directory] at empty
    cases empty

theorem pave_directories (directory : d.at? p = some .directory)
    (passed : (d.pave p names).2 = .ok () ∨ (d.pave p names).2 = .error .alreadyExists)
    (above : p <+: q) (below : q <+: p ++ names)
    (proper : (d.pave p names).2 = .ok () ∨ q ≠ p ++ names) :
    (d.pave p names).1.at? q = some .directory := by
  induction names generalizing d p with
  | nil =>
      rw [List.append_nil] at below
      rw [below.eq_of_length_le above.length_le]
      exact directory
  | cons n rest ih =>
      obtain rfl | deeper : q = p ∨ p ++ [n] <+: q := by
        obtain ⟨more, rfl⟩ := above
        cases more with
        | nil => exact .inl (List.append_nil p)
        | cons m more => exact .inr (by simp_all)
      · exact pave_keeps d q (n :: rest) directory
      · rw [List.append_cons] at below proper
        rw [pave] at passed proper ⊢
        split
        next long => simp [long] at passed
        next short =>
          rw [if_neg short] at passed proper
          split
          next inside =>
            simp only [inside] at passed proper
            exact ih inside passed deeper below proper
          next empty =>
            simp only [empty] at passed proper
            exact ih (at?_set_self (by simp)) passed deeper below proper
          next c blocked =>
            simp only [blocked] at passed proper
            cases rest with
            | nil =>
                rw [List.append_nil] at below proper
                exact absurd (below.eq_of_length_le deeper.length_le) (by simpa using proper)
            | cons m more => simp at passed

theorem pave_short
    (passed : (d.pave p names).2 = .ok () ∨ (d.pave p names).2 = .error .alreadyExists) :
    names.any (nameLimit < ·.utf8ByteSize) = false := by
  induction names generalizing d p with
  | nil => rfl
  | cons n rest ih =>
      rw [pave] at passed
      split at passed
      next => simp at passed
      next short =>
        suffices rest.any (nameLimit < ·.utf8ByteSize) = false by simp_all
        split at passed
        · exact ih passed
        · exact ih passed
        · cases rest with
          | nil => rfl
          | cons m more => simp at passed

theorem pave_open (directory : d.at? p = some .directory) (done : (d.pave p names).2 = .ok ()) :
    (d.pave p names).1.follow p (names.map .name) = .ok (p ++ names) ∧
      (d.pave p names).1.at? (p ++ names) = some .directory := by
  have reached {q : Place} (above : p <+: q) (below : q <+: p ++ names) :
      (d.pave p names).1.at? q = some .directory :=
    pave_directories directory (.inl done) above below (.inl done)
  refine ⟨?_, reached (List.prefix_append p names) (List.prefix_refl _)⟩
  rw [follow_of_directories fun q above below _ => reached above below, pave_short (.inl done)]
  rfl

theorem pave_blocked (blocked : (d.pave p names).2 = .error .alreadyExists) :
    ∃ c, d.at? (p ++ names) = some (.file c) := by
  induction names generalizing d p with
  | nil => cases blocked
  | cons n rest ih =>
      rw [List.append_cons]
      rw [pave] at blocked
      split at blocked
      next => cases blocked
      next =>
        split at blocked
        next => exact ih blocked
        next empty =>
          obtain ⟨c, there⟩ := ih blocked
          refine ⟨c, ?_⟩
          rwa [at?_set_of_ne] at there
          intro same
          rw [same, at?_set_self (by simp)] at there
          cases there
        next c there =>
          cases rest with
          | nil => exact ⟨c, by rw [List.append_nil, there]⟩
          | cons m more => cases blocked

/-! ## From the end of a path -/

theorem pave_of_follow (directory : d.at? p = some .directory)
    (open_ : d.follow p (names.map .name) = .ok q) :
    d.pave p names = match d.at? q with
      | some .directory => (d, .ok ())
      | some (.file _) => (d, .error .alreadyExists)
      | none => (d.set q .directory, .ok ()) := by
  induction names generalizing p with
  | nil =>
      cases open_
      rw [directory]
      rfl
  | cons n rest ih =>
      rw [List.map_cons, follow_name directory] at open_
      split at open_
      next => cases open_
      next short =>
        rw [pave, if_neg short]
        cases rest with
        | nil =>
            cases open_
            cases d.at? (p ++ [n]) with
            | none => rfl
            | some e => cases e <;> rfl
        | cons m more =>
            cases here : d.at? (p ++ [n]) with
            | none =>
                rw [List.map_cons, follow, here] at open_
                cases open_
            | some e =>
                cases e with
                | file c =>
                    rw [List.map_cons, follow, here] at open_
                    cases open_
                | directory => exact ih here open_

theorem pave_of_refused (directory : d.at? p = some .directory) {x : DiskError}
    (refused : d.follow p (names.map .name) = .error x) (other : x ≠ .notFound) :
    d.pave p names = (d, .error x) ∧ x ≠ .alreadyExists := by
  induction names generalizing p with
  | nil => cases refused
  | cons n rest ih =>
      rw [List.map_cons, follow_name directory] at refused
      rw [pave]
      split at refused
      next long =>
        cases refused
        simp [long]
      next short =>
        rw [if_neg short]
        cases rest with
        | nil => cases refused
        | cons m more =>
            cases here : d.at? (p ++ [n]) with
            | none =>
                rw [List.map_cons, follow, here] at refused
                cases refused
                exact absurd rfl other
            | some e =>
                cases e with
                | file c =>
                    rw [List.map_cons, follow, here] at refused
                    cases refused
                    simp
                | directory => exact ih here refused

theorem pave_empty (empty : ∀ q, p <+: q → q ≠ p → d.at? q = none) :
    (d.pave p names).2 = .ok () ∨ (d.pave p names).2 = .error .nameTooLong := by
  induction names generalizing d p with
  | nil => exact .inl rfl
  | cons n rest ih =>
      rw [pave]
      split
      · exact .inr rfl
      · rw [empty (p ++ [n]) (List.prefix_append p [n]) (by simp)]
        refine ih fun q above proper => ?_
        rw [at?_set_of_ne proper]
        refine empty q ((List.prefix_append p [n]).trans above) fun same => ?_
        have := above.length_le
        rw [same, List.length_append, List.length_singleton] at this
        omega

theorem pave_of_missing (tree : d.IsTree) (directory : d.at? p = some .directory)
    (missing : d.follow p (names.map .name) = .error .notFound) :
    (d.pave p names).2 = .ok () ∨ (d.pave p names).2 = .error .nameTooLong := by
  induction names generalizing p with
  | nil => cases missing
  | cons n rest ih =>
      rw [List.map_cons, follow_name directory] at missing
      rw [pave]
      split at missing
      next => cases missing
      next short =>
        rw [if_neg short]
        cases here : d.at? (p ++ [n]) with
        | none =>
            refine pave_empty fun q above proper => ?_
            rw [at?_set_of_ne proper]
            refine Decidable.byContradiction fun there => ?_
            rw [tree.above above (Ne.symm proper) there] at here
            cases here
        | some e =>
            cases e with
            | directory => exact ih here missing
            | file c =>
                cases rest with
                | nil => cases missing
                | cons m more =>
                    rw [List.map_cons, follow, here] at missing
                    cases missing

theorem makeDirectory_last (l : Leads d path front base (names ++ [n])) (nonempty : path.text ≠ "")
    (noNul : path.text.toList.contains '\x00' = false)
    (open_ : d.follow base (names.map .name) = .ok (base ++ names))
    (directory : d.at? (base ++ names) = some .directory) :
    (∃ made, d.makeDirectory path = .ok made ∧ d.pave (base ++ names) [n] = (made, .ok ())) ∨
      ∃ x, x ≠ .notFound ∧ d.makeDirectory path = .error x ∧
        d.pave (base ++ names) [n] = (d, if d.isDirectory path then .ok () else .error x) := by
  have place : d.placeOf path =
      if nameLimit < n.utf8ByteSize then .error .nameTooLong else .ok (base ++ names ++ [n]) := by
    rw [placeOf, if_neg (by simpa using nonempty), if_neg (by simpa using noNul), l.follow,
      List.map_append, follow_append, open_]
    exact follow_name directory n []
  by_cases long : nameLimit < n.utf8ByteSize
  · rw [if_pos long] at place
    refine .inr ⟨.nameTooLong, by simp, ?_, ?_⟩
    · rw [makeDirectory, place]
      rfl
    · simp [pave, long, isDirectory, find, place, bind, Except.bind]
  · rw [if_neg long] at place
    simp only [makeDirectory, isDirectory, find, place, bind, Except.bind, pave, long, if_false]
    cases d.at? (base ++ names ++ [n]) with
    | none => exact .inl ⟨_, rfl, rfl⟩
    | some e =>
        refine .inr ⟨.alreadyExists, by simp, rfl, ?_⟩
        cases e with
        | directory => rfl
        | file c =>
            simp only [List.isEmpty_nil, if_true]
            split <;> rfl

theorem follow_mono (kept : ∀ r, d.at? r = some .directory → d'.at? r = some .directory)
    {parts : List PathPart} (h : d.follow p parts = .ok q) : d'.follow p parts = .ok q := by
  induction parts generalizing p with
  | nil => exact h
  | cons x rest ih =>
      rw [follow_cons_eq_ok_iff] at h ⊢
      cases x with
      | root => exact ih h
      | here => exact ih h
      | up => exact ⟨kept p h.1, ih h.2⟩
      | name n => exact ⟨kept p h.1, h.2.1, ih h.2.2⟩

theorem placeOf_mono (here : d'.here = d.here)
    (kept : ∀ r, d.at? r = some .directory → d'.at? r = some .directory)
    (h : d.placeOf path = .ok p) : d'.placeOf path = .ok p := by
  obtain ⟨nonempty, noNul, way⟩ := placeOf_eq_ok_iff.1 h
  rw [placeOf_eq_ok_iff, here]
  exact ⟨nonempty, noNul, follow_mono kept way⟩

theorem find_mono (here : d'.here = d.here)
    (kept : ∀ r, d.at? r = some .directory → d'.at? r = some .directory) {e : Entry}
    (there : d'.at? (d.destination path) = some e) (plain : meansDirectory path → e = .directory)
    (place : d.placeOf path = .ok p) : d'.find path = .ok e := by
  have same : d'.destination path = d.destination path := by
    rw [destination, here, destination]
  rw [placeOf_eq_destination place] at place
  rw [find_eq_ok_iff, same]
  exact ⟨placeOf_mono here kept place, there, plain⟩

theorem find_of_written {c : Content} (h : d.write path c = .ok d') :
    d'.find path = .ok (.file c) := by
  obtain ⟨place, plain, free, rfl⟩ := write_eq_ok h
  have kept (r : Place) (directory : d.at? r = some .directory) :
      (d.set (d.destination path) (.file c)).at? r = some .directory := by
    have other : r ≠ d.destination path := by
      rintro rfl
      exact free directory
    rw [at?_set_of_ne other, directory]
  have here : (d.set (d.destination path) (.file c)).here = d.here := rfl
  exact find_mono here kept (at?_set_self (ne_nil_of_at? free)) (by simp [plain]) place

theorem exists?_of_removed (h : d.removeFile path = .ok d') : d'.exists? path = false := by
  obtain ⟨c, there, rfl⟩ := removeFile_eq_ok h
  have proper := ne_nil_of_at? (d := d) (p := d.destination path) (by simp [there])
  rw [← Bool.not_eq_true, exists?_iff]
  rintro ⟨e, found⟩
  have still : (d.remove (d.destination path)).at? (d.destination path) = some e :=
    (find_eq_ok_iff.1 found).2.1
  rw [at?_remove_self proper] at still
  cases still

theorem Leads.mono (l : Leads d path front base names) (here : d'.here = d.here)
    (kept : ∀ r, d.at? r = some .directory → d'.at? r = some .directory) :
    Leads d' path front base names where
  parts := l.parts
  reached := by
    rw [here]
    exact follow_mono kept l.reached
  directory := kept base l.directory

theorem pave_at_end (d : Disk) (base : Place) (names : List String) (n : String) :
    (d.pave base names).1.at? (base ++ (names ++ [n])) = d.at? (base ++ (names ++ [n])) := by
  obtain same | ⟨-, -, below⟩ := pave_at d base names (base ++ (names ++ [n]))
  · exact same
  · have := below.length_le
    simp only [List.length_append, List.length_singleton] at this
    omega

theorem Leads.pave (l : Leads d path front base (names ++ [n])) :
    Leads (d.pave base names).1 path front base (names ++ [n]) :=
  l.mono (pave_here d base names) fun _ => pave_keeps d base names

/-- An attempt at the last directory meets a directory above it, nothing, or an obstacle. -/
theorem makeDirectory_cases (tree : d.IsTree) (l : Leads d path front base (names ++ [n]))
    (nonempty : path.text ≠ "") (noNul : path.text.toList.contains '\x00' = false) :
    (d.follow base (names.map .name) = .ok (base ++ names) ∧
        d.at? (base ++ names) = some .directory) ∨
      (d.makeDirectory path = .error .notFound ∧
        ((d.pave base names).2 = .ok () ∨ (d.pave base names).2 = .error .nameTooLong)) ∨
      ∃ x, x ≠ .notFound ∧ d.makeDirectory path = .error x ∧ d.isDirectory path = false ∧
        d.pave base (names ++ [n]) = (d, .error x) := by
  have place : d.placeOf path =
      d.follow base (names.map .name) >>= fun q => d.follow q [.name n] := by
    rw [placeOf, if_neg (by simpa using nonempty), if_neg (by simpa using noNul), l.follow,
      List.map_append, follow_append]
    rfl
  have stopped {x : DiskError} (h : d.placeOf path = .error x) :
      d.makeDirectory path = .error x ∧ d.isDirectory path = false := by
    simp [makeDirectory, isDirectory, find, h, bind, Except.bind]
  cases way : d.follow base (names.map .name) with
  | ok q =>
      obtain rfl := follow_names_eq way
      have paved := pave_of_follow l.directory way
      rw [way] at place
      cases there : d.at? (base ++ names) with
      | none =>
          have missing : d.placeOf path = .error .notFound := by
            rw [place]
            simp [bind, Except.bind, follow, there]
          exact .inr (.inl ⟨(stopped missing).1, .inl (by rw [paved, there])⟩)
      | some e =>
          cases e with
          | directory => exact .inl ⟨rfl, rfl⟩
          | file c =>
              have blocked : d.placeOf path = .error .notADirectory := by
                rw [place]
                simp [bind, Except.bind, follow, there]
              obtain ⟨made, none⟩ := stopped blocked
              refine .inr (.inr ⟨.notADirectory, by simp, made, none, ?_⟩)
              rw [pave_concat, paved, there]
              simp
  | error x =>
      rw [way] at place
      obtain ⟨made, none⟩ := stopped place
      by_cases missing : x = .notFound
      · subst missing
        exact .inr (.inl ⟨made, pave_of_missing tree l.directory way⟩)
      · obtain ⟨paved, other⟩ := pave_of_refused l.directory way missing
        refine .inr (.inr ⟨x, missing, made, none, ?_⟩)
        rw [pave_concat, paved]
        simp [other]

theorem noNul_of_parent? (h : path.parent? = some outer)
    (noNul : path.text.toList.contains '\x00' = false) :
    outer.text.toList.contains '\x00' = false := by
  have within : ∀ c ∈ outer.text.toList, c ∈ path.text.toList := by
    intro c hc
    unfold Path.parent? at h
    split at h
    next => cases h
    next last =>
      split at h
      next => cases h
      next =>
        cases h
        unfold Path.cover at hc
        split at hc
        next =>
          rw [String.toList_ofList] at hc
          exact List.mem_of_mem_drop (List.mem_of_mem_take hc)
        next => cases hc
  rw [List.contains_eq_mem, decide_eq_false_iff_not] at noNul ⊢
  exact fun member => noNul (within _ member)

/-- Making directories from the end backwards comes to the same as going inwards. -/
theorem makeDirectories_eq (tree : d.IsTree) {fuel : Nat} (l : Leads d path front base names)
    (noNul : path.text.toList.contains '\x00' = false) (enough : names.length < fuel) :
    d.makeDirectories fuel path = d.pave base names := by
  -- Each attempt at a directory takes one fuel and, if it has to be made later, the last name.
  induction fuel generalizing path names with
  | zero => omega
  | succ fuel ih =>
      rw [makeDirectories]
      by_cases empty : path.text = ""
      · have none : names = [] := by
          have parts := l.parts
          rw [Path.parts_eq, empty] at parts
          simpa using (List.append_eq_nil_iff.1 parts.symm).2
        subst none
        simp [empty, pave]
      rw [if_neg (by simpa using empty)]
      cases last : names.getLast? with
      | none =>
          cases List.getLast?_eq_none_iff.1 last
          have place : d.placeOf path = .ok base :=
            placeOf_eq_ok_iff.2 ⟨by simpa using empty, noNul, by rw [l.follow]; rfl⟩
          simp [makeDirectory, isDirectory, find, place, bind, Except.bind, l.directory, pave]
      | some n =>
          obtain ⟨names, rfl⟩ := List.getLast?_eq_some_iff.1 last
          obtain ⟨outer, houter⟩ := l.exists_parent
          obtain ⟨open_, directory⟩ | ⟨missing, passed⟩ | ⟨x, other, made, none, paved⟩ :=
            makeDirectory_cases tree l empty noNul
          · have paved : d.pave base names = (d, .ok ()) := by
              rw [pave_of_follow l.directory open_, directory]
            rw [pave_concat, paved]
            obtain ⟨made, done, last⟩ | ⟨x, other, failed, last⟩ :=
              makeDirectory_last l empty noNul open_ directory
            · simp only [done, last]
            · simp only [failed, last]
          · rw [missing, houter, pave_concat]
            simp only
            rw [ih (l.parent houter) (noNul_of_parent? houter noNul) (by simpa using enough)]
            have kept (r : Place) := pave_keeps (q := r) d base names
            have here := pave_here d base names
            have ready := @pave_open d base names l.directory
            generalize d.pave base names = paved at passed kept here ready ⊢
            obtain ⟨above, result⟩ := paved
            cases result with
            | error x =>
                obtain rfl : x = .nameTooLong := by simpa using passed
                rfl
            | ok _ =>
                obtain ⟨open_, directory⟩ := ready rfl
                obtain ⟨made, done, last⟩ | ⟨x, other, failed, last⟩ :=
                  makeDirectory_last (l.mono here kept) empty noNul open_ directory
                · simp only [done, last]
                · simp only [failed, last]
          · rw [made, paved]
            simp [none]

end Disk

end PropStories
