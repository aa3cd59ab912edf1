import SimplifiedPrism.Threads

/-!
# Orphans that are left behind

A worker tests for the parent of a block in one section, for the bucket of the
parent in a second, and puts the block into the bucket in a third; another worker
may accept the parent and look for orphans in between.  The orphan then waits for
a block that is in the tree, and nobody looks for it again.  Two workers may both
find no bucket, and the bucket of the second overwrites that of the first.  The
release copies a bucket in one section and removes it in another, and loses what is
added in between; and a bucket that was found may be gone when the block is put into
it.  When no two workers meet in these ways, every orphan gets into its bucket, a
bucket grows until it is released as a whole, and no bucket outlasts the acceptance
of its block.
-/

namespace SimplifiedPrism

variable {crypto : Crypto}

/-! ## Handling blocks -/

/-- A section of the handling of proposer blocks. -/
def Section.OfBlocks : Section → Prop
  | .testBlock _ | .testParent _ | .testBucket _ | .pushOrphan _ | .insertOrphan _
  | .verifyRef _ _ _ | .readRef _ | .insertRef _ _ | .readState _ | .testWaiting _
  | .cloneWaiting _ | .removeWaiting _ _ => True
  | .applyRef author _ _ _ _ | .prunePool author _ _ | .insertState author _ _
  | .insertBlock author _ => author = .worker
  | _ => False

/-- A section that begins with a block. -/
def Section.Begins : Section → Prop
  | .testBlock _ | .verifyRef _ _ _ | .readRef _ => True
  | _ => False

/-- The thread has found a parent missing, and has yet to put the block into its
bucket. -/
def Section.Buffers (parent : H256) : Section → Prop
  | .testBucket each | .pushOrphan each | .insertOrphan each =>
      each.header.proposerParent = parent
  | _ => False

/-- The thread has found the bucket and is about to add to it. -/
def Section.Pushes (parent : H256) : Section → Prop
  | .pushOrphan each => each.header.proposerParent = parent
  | _ => False

/-- The thread has found no bucket and is about to make one. -/
def Section.Makes (parent : H256) : Section → Prop
  | .insertOrphan each => each.header.proposerParent = parent
  | _ => False

/-- The thread has copied the bucket and is about to remove it. -/
def Section.Removes (parent : H256) : Section → Prop
  | .removeWaiting hash _ => hash = parent
  | _ => False

/-- The thread publishes a block. -/
def Section.Publishes (each : ProposerBlock) : Section → Prop
  | .readRef block | .insertRef block _ | .readState block => block = each
  | .applyRef author block _ _ _ | .prunePool author block _ | .insertState author block _
  | .insertBlock author block => author = .worker ∧ block = each
  | _ => False

/-- The thread looks for orphans of a block, or will do so unless it panics. -/
def Section.Releases (crypto : Crypto) (hash : H256) : Section → Prop
  | .readRef each | .insertRef each _ | .readState each | .applyRef _ each _ _ _
  | .prunePool _ each _ | .insertState _ each _ | .insertBlock _ each => each.hash crypto = hash
  | .testWaiting parent | .cloneWaiting parent | .removeWaiting parent _ => parent = hash
  | _ => False

section Decidable

variable (parent hash : H256)

instance : DecidablePred (Section.Buffers parent) := by
  intro current
  cases current with
  | testBucket each | pushOrphan each | insertOrphan each =>
      exact inferInstanceAs (Decidable (each.header.proposerParent = parent))
  | _ => exact inferInstanceAs (Decidable False)

instance : DecidablePred (Section.Pushes parent) := by
  intro current
  cases current with
  | pushOrphan each => exact inferInstanceAs (Decidable (each.header.proposerParent = parent))
  | _ => exact inferInstanceAs (Decidable False)

instance : DecidablePred (Section.Makes parent) := by
  intro current
  cases current with
  | insertOrphan each => exact inferInstanceAs (Decidable (each.header.proposerParent = parent))
  | _ => exact inferInstanceAs (Decidable False)

instance : DecidablePred (Section.Removes parent) := by
  intro current
  cases current with
  | removeWaiting hash _ => exact inferInstanceAs (Decidable (hash = parent))
  | _ => exact inferInstanceAs (Decidable False)

instance : DecidablePred (Section.Releases crypto hash) := by
  intro current
  cases current with
  | readRef each | insertRef each _ | readState each | applyRef _ each _ _ _
  | prunePool _ each _ | insertState _ each _ | insertBlock _ each =>
      exact inferInstanceAs (Decidable (each.hash crypto = hash))
  | testWaiting parent | cloneWaiting parent | removeWaiting parent _ =>
      exact inferInstanceAs (Decidable (parent = hash))
  | _ => exact inferInstanceAs (Decidable False)

end Decidable

/-- Everything that a section of the handling of proposer blocks can do. -/
inductive Handles (crypto : Crypto) (node : Node) : Section → Node → List Section → Prop
  | skip (each : ProposerBlock) : Handles crypto node (.testBlock each) node []
  | new (each : ProposerBlock) : Handles crypto node (.testBlock each) node [.testParent each]
  | rooted (each : ProposerBlock) :
      Handles crypto node (.testParent each) node [.verify each each.content.proposerContent]
  | orphan (each : ProposerBlock)
      (missing : each.header.proposerParent ∉ node.blockchain.blocks) :
      Handles crypto node (.testParent each) node [.testBucket each]
  | bucket (each : ProposerBlock) (found : each.header.proposerParent ∈ node.orphanHandler) :
      Handles crypto node (.testBucket each) node [.pushOrphan each]
  | noBucket (each : ProposerBlock) (none : each.header.proposerParent ∉ node.orphanHandler) :
      Handles crypto node (.testBucket each) node [.insertOrphan each]
  | gone (each : ProposerBlock) (none : each.header.proposerParent ∉ node.orphanHandler) :
      Handles crypto node (.pushOrphan each) node []
  | push (each : ProposerBlock) (bucket : List ProposerBlock)
      (waiting : node.orphanHandler.lookup each.header.proposerParent = some bucket) :
      Handles crypto node (.pushOrphan each)
        { node with orphanHandler :=
            node.orphanHandler.insert each.header.proposerParent (bucket ++ [each]) } []
  | make (each : ProposerBlock) :
      Handles crypto node (.insertOrphan each)
        { node with orphanHandler :=
            node.orphanHandler.insert each.header.proposerParent [each] } []
  | unsigned (each : ProposerBlock) (ref : H256) (refs : List H256) :
      Handles crypto node (.verifyRef each ref refs) node []
  | signed (each : ProposerBlock) (ref : H256) (refs : List H256) :
      Handles crypto node (.verifyRef each ref refs) node [.verify each refs]
  | publish (each : ProposerBlock) (current : Section) (after : Node) (next : Section)
      (publishes : current.Publishes each) (goesOn : next.Publishes each)
      (blockchain : after.blockchain = node.blockchain)
      (orphanHandler : after.orphanHandler = node.orphanHandler) :
      Handles crypto node current after [next]
  | insert (each : ProposerBlock) (blockchain : Blockchain)
      (blocks : blockchain.blocks = node.blockchain.blocks.insert (each.hash crypto) each) :
      Handles crypto node (.insertBlock .worker each) { node with blockchain }
        [.testWaiting (each.hash crypto)]
  | nobody (hash : H256) (none : hash ∉ node.orphanHandler) :
      Handles crypto node (.testWaiting hash) node []
  | somebody (hash : H256) : Handles crypto node (.testWaiting hash) node [.cloneWaiting hash]
  | clone (hash : H256) (vec : List ProposerBlock)
      (copied : node.orphanHandler.lookup hash = some vec) :
      Handles crypto node (.cloneWaiting hash) node [.removeWaiting hash vec]
  | remove (hash : H256) (vec : List ProposerBlock) :
      Handles crypto node (.removeWaiting hash vec)
        { node with orphanHandler := node.orphanHandler.erase hash }
        (vec.map fun each => .verify each each.content.proposerContent)

section Handles

variable {node after : Node} {current next : Section} {todo : List Section}

theorem publishes_apply (each : ProposerBlock) (currState : Ledger) (refs : List H256) :
    (Section.apply .worker each currState refs).Publishes each := by
  cases refs with
  | nil => exact ⟨rfl, rfl⟩
  | cons ref refs => exact ⟨rfl, rfl⟩

theorem handles_of_run (ofBlocks : current.OfBlocks)
    (goesOn : (current.run crypto node).next = .ok todo) :
    Handles crypto node current (current.run crypto node).node todo := by
  cases current with
  | testBlock each =>
      obtain rfl := Except.ok.inj goesOn
      dsimp only [Section.run]
      split
      · exact .skip each
      · exact .new each
  | testParent each =>
      obtain rfl := Except.ok.inj goesOn
      dsimp only [Section.run]
      split
      · exact .rooted each
      · next missing => exact .orphan each missing
  | testBucket each =>
      obtain rfl := Except.ok.inj goesOn
      dsimp only [Section.run]
      split
      · next found => exact .bucket each found
      · next none => exact .noBucket each none
  | pushOrphan each =>
      obtain rfl := Except.ok.inj goesOn
      dsimp only [Section.run]
      split
      · next bucket waiting => exact .push each bucket waiting
      · next none => exact .gone each (Finmap.lookup_eq_none.mp none)
  | insertOrphan each =>
      obtain rfl := Except.ok.inj goesOn
      exact .make each
  | verifyRef each ref refs =>
      obtain ⟨txBlock, -, rfl⟩ := read_eq_ok goesOn
      rw [Section.run, Node.read_node]
      split
      · exact .signed each ref refs
      · exact .unsigned each ref refs
  | readRef each =>
      obtain ⟨parentRef, -, rfl⟩ := read_eq_ok goesOn
      rw [Section.run, Node.read_node]
      exact .publish each _ _ _ rfl rfl rfl rfl
  | insertRef each newRef =>
      obtain rfl := Except.ok.inj goesOn
      exact .publish each _ _ _ rfl rfl rfl rfl
  | readState each =>
      obtain ⟨currState, -, rfl⟩ := read_eq_ok goesOn
      rw [Section.run, Node.read_node]
      exact .publish each _ _ _ rfl (publishes_apply each _ _) rfl rfl
  | applyRef author each currState ref refs =>
      obtain rfl : author = .worker := ofBlocks
      simp only [Section.run] at goesOn ⊢
      split at goesOn
      · cases goesOn
      · obtain ⟨ledger, -, rfl⟩ := read_eq_ok goesOn
        rw [Node.read_node]
        exact .publish each _ _ _ ⟨rfl, rfl⟩ (publishes_apply each _ _) rfl rfl
  | prunePool author each currState =>
      obtain rfl : author = .worker := ofBlocks
      simp only [Section.run] at goesOn ⊢
      split at goesOn
      · cases goesOn
      · obtain rfl := Except.ok.inj goesOn
        exact .publish each _ _ _ ⟨rfl, rfl⟩ ⟨rfl, rfl⟩ rfl rfl
  | insertState author each currState =>
      obtain rfl : author = .worker := ofBlocks
      obtain rfl := Except.ok.inj goesOn
      exact .publish each _ _ _ ⟨rfl, rfl⟩ ⟨rfl, rfl⟩ rfl rfl
  | insertBlock author each =>
      obtain rfl : author = .worker := ofBlocks
      simp only [Section.run] at goesOn ⊢
      split at goesOn
      · cases goesOn
      · next blockchain inserted =>
          obtain rfl := Except.ok.inj goesOn
          obtain ⟨_, -, blocks, -⟩ := Blockchain.insert_ok inserted
          exact .insert each blockchain blocks
  | testWaiting hash =>
      obtain rfl := Except.ok.inj goesOn
      dsimp only [Section.run]
      split
      · exact .somebody hash
      · next none => exact .nobody hash none
  | cloneWaiting hash =>
      obtain ⟨vec, read, rfl⟩ := read_eq_ok goesOn
      rw [Section.run, Node.read_node]
      exact .clone hash vec read
  | removeWaiting hash vec =>
      obtain rfl := Except.ok.inj goesOn
      exact .remove hash vec
  | _ => cases ofBlocks

theorem ofBlocks_verify (each : ProposerBlock) (refs : List H256) :
    (Section.verify each refs).OfBlocks := by
  cases refs <;> trivial

theorem begins_verify (each : ProposerBlock) (refs : List H256) :
    (Section.verify each refs).Begins := by
  cases refs <;> trivial

theorem Section.Pushes.buffers {parent : H256} (pushes : current.Pushes parent) :
    current.Buffers parent := by
  cases current with
  | pushOrphan each => exact pushes
  | _ => cases pushes

theorem Section.Makes.buffers {parent : H256} (makes : current.Makes parent) :
    current.Buffers parent := by
  cases current with
  | insertOrphan each => exact makes
  | _ => cases makes

theorem Section.Begins.apart (begins : current.Begins) (parent : H256) :
    ¬ current.Buffers parent ∧ ¬ current.Removes parent := by
  cases current with
  | testBlock _ | verifyRef _ _ _ | readRef _ => exact ⟨id, id⟩
  | _ => cases begins

section Publishes

variable {each : ProposerBlock}

theorem Section.Publishes.ofBlocks (publishes : current.Publishes each) : current.OfBlocks := by
  cases current with
  | readRef _ | insertRef _ _ | readState _ => trivial
  | applyRef _ _ _ _ _ | prunePool _ _ _ | insertState _ _ _ | insertBlock _ _ =>
      exact publishes.1
  | _ => cases publishes

theorem Section.Publishes.apart (publishes : current.Publishes each) (parent : H256) :
    ¬ current.Buffers parent ∧ ¬ current.Removes parent := by
  cases current with
  | readRef _ | insertRef _ _ | readState _ | applyRef _ _ _ _ _ | prunePool _ _ _
  | insertState _ _ _ | insertBlock _ _ => exact ⟨id, id⟩
  | _ => cases publishes

theorem Section.Publishes.releases_iff (publishes : current.Publishes each) (hash : H256) :
    current.Releases crypto hash ↔ each.hash crypto = hash := by
  cases current with
  | readRef block | insertRef block _ | readState block =>
      obtain rfl : block = each := publishes
      rfl
  | applyRef _ _ _ _ _ | prunePool _ _ _ | insertState _ _ _ | insertBlock _ _ =>
      obtain ⟨-, rfl⟩ := publishes
      rfl
  | _ => cases publishes

end Publishes

theorem Handles.ofBlocks (handles : Handles crypto node current after todo) :
    ∀ next ∈ todo, next.OfBlocks := by
  intro next member
  cases handles with
  | skip _ | gone _ _ | push _ _ _ | make _ | unsigned _ _ _ | nobody _ _ => cases member
  | new _ | orphan _ _ | bucket _ _ | noBucket _ _ | insert _ _ _ | somebody _ | clone _ _ _ =>
      rw [List.mem_singleton.mp member]
      trivial
  | rooted _ | signed _ _ _ =>
      rw [List.mem_singleton.mp member]
      exact ofBlocks_verify _ _
  | publish _ _ _ _ _ goesOn _ _ =>
      rw [List.mem_singleton.mp member]
      exact goesOn.ofBlocks
  | remove _ _ =>
      obtain ⟨each, -, rfl⟩ := List.mem_map.mp member
      exact ofBlocks_verify _ _

theorem Handles.begins (handles : Handles crypto node current after todo) :
    ∀ next ∈ todo.tail, next.Begins := by
  intro next member
  cases handles with
  | skip _ | gone _ _ | push _ _ _ | make _ | unsigned _ _ _ | nobody _ _ | new _ | orphan _ _
  | bucket _ _ | noBucket _ _ | insert _ _ _ | somebody _ | clone _ _ _ | rooted _ | signed _ _ _
  | publish _ _ _ _ _ _ _ _ => cases member
  | remove _ _ =>
      obtain ⟨each, -, rfl⟩ := List.mem_map.mp (List.mem_of_mem_tail member)
      exact begins_verify _ _

theorem Handles.bucket_cases (handles : Handles crypto node current after todo)
    (member : next ∈ todo) :
    (∀ parent, ¬ next.Buffers parent ∧ ¬ next.Removes parent) ∨
      (∃ each, next = .testBucket each ∧ each.header.proposerParent ∉ node.blockchain.blocks) ∨
      (∃ each, current = .testBucket each ∧ next = .pushOrphan each ∧
        each.header.proposerParent ∈ after.orphanHandler) ∨
      (∃ each, current = .testBucket each ∧ next = .insertOrphan each ∧
        each.header.proposerParent ∉ after.orphanHandler) ∨
      ∃ hash vec, next = .removeWaiting hash vec ∧ after.orphanHandler.lookup hash = some vec := by
  cases handles with
  | skip _ | gone _ _ | push _ _ _ | make _ | unsigned _ _ _ | nobody _ _ => cases member
  | new _ | insert _ _ _ | somebody _ =>
      rw [List.mem_singleton.mp member]
      exact .inl fun _ => ⟨id, id⟩
  | orphan each missing => exact .inr (.inl ⟨each, List.mem_singleton.mp member, missing⟩)
  | bucket each found =>
      exact .inr (.inr (.inl ⟨each, rfl, List.mem_singleton.mp member, found⟩))
  | noBucket each none =>
      exact .inr (.inr (.inr (.inl ⟨each, rfl, List.mem_singleton.mp member, none⟩)))
  | clone hash vec copied =>
      exact .inr (.inr (.inr (.inr ⟨hash, vec, List.mem_singleton.mp member, copied⟩)))
  | rooted _ | signed _ _ _ =>
      rw [List.mem_singleton.mp member]
      exact .inl (begins_verify _ _).apart
  | publish _ _ _ _ _ goesOn _ _ =>
      rw [List.mem_singleton.mp member]
      exact .inl goesOn.apart
  | remove _ _ =>
      obtain ⟨each, -, rfl⟩ := List.mem_map.mp member
      exact .inl (begins_verify _ _).apart

section Buckets

variable {parent : H256}

/-- A thread that is about to make a bucket has just found none. -/
theorem Handles.makes (handles : Handles crypto node current after todo) (member : next ∈ todo)
    (makes : next.Makes parent) : parent ∉ after.orphanHandler := by
  rcases handles.bucket_cases member with apart | ⟨each, rfl, -⟩ | ⟨each, -, rfl, -⟩ |
    ⟨each, -, rfl, none⟩ | ⟨hash, vec, rfl, -⟩
  · exact absurd makes.buffers (apart parent).1
  · cases makes
  · cases makes
  · exact makes ▸ none
  · cases makes

/-- A thread that is about to add to a bucket has just found it. -/
theorem Handles.pushes (handles : Handles crypto node current after todo) (member : next ∈ todo)
    (pushes : next.Pushes parent) : parent ∈ after.orphanHandler := by
  rcases handles.bucket_cases member with apart | ⟨each, rfl, -⟩ | ⟨each, -, rfl, found⟩ |
    ⟨each, -, rfl, -⟩ | ⟨hash, vec, rfl, -⟩
  · exact absurd pushes.buffers (apart parent).1
  · cases pushes
  · exact pushes ▸ found
  · cases pushes
  · cases pushes

/-- A thread that is about to remove a bucket has just copied it. -/
theorem Handles.removes {vec : List ProposerBlock}
    (handles : Handles crypto node current after todo)
    (member : .removeWaiting parent vec ∈ todo) :
    after.orphanHandler.lookup parent = some vec := by
  rcases handles.bucket_cases member with apart | ⟨_, impossible, -⟩ | ⟨_, -, impossible, -⟩ |
    ⟨_, -, impossible, -⟩ | ⟨hash, copy, same, copied⟩
  · exact absurd rfl (apart parent).2
  · cases impossible
  · cases impossible
  · cases impossible
  · cases same
    exact copied

/-- A thread that is about to buffer has just found the parent missing, or was about
to buffer before. -/
theorem Handles.buffers (handles : Handles crypto node current after todo) (member : next ∈ todo)
    (buffers : next.Buffers parent) :
    parent ∉ node.blockchain.blocks ∨ current.Buffers parent := by
  rcases handles.bucket_cases member with apart | ⟨each, rfl, missing⟩ | ⟨each, rfl, rfl, -⟩ |
    ⟨each, rfl, rfl, -⟩ | ⟨hash, vec, rfl, -⟩
  · exact absurd buffers (apart parent).1
  · exact .inl (buffers ▸ missing)
  · exact .inr buffers
  · exact .inr buffers
  · cases buffers

end Buckets

/-- A thread that has inserted a block looks for orphans of it. -/
theorem Handles.inserted {hash : H256} (handles : Handles crypto node current after todo)
    (member : hash ∈ after.blockchain.blocks) :
    hash ∈ node.blockchain.blocks ∨ ∃ next ∈ todo, next.Releases crypto hash := by
  cases handles with
  | skip _ | gone _ _ | push _ _ _ | make _ | unsigned _ _ _ | nobody _ _ | new _ | orphan _ _
  | bucket _ _ | noBucket _ _ | somebody _ | clone _ _ _ | rooted _ | signed _ _ _ | remove _ _ =>
      exact .inl member
  | publish _ _ _ _ _ _ blockchain _ => exact .inl (blockchain ▸ member)
  | insert each blockchain blocks =>
      rw [blocks, Finmap.mem_insert] at member
      rcases member with rfl | earlier
      · exact .inr ⟨_, List.mem_cons_self, rfl⟩
      · exact .inl earlier

/-- The search for orphans of a block comes to its end in the section. -/
inductive LastLook (node : Node) (hash : H256) : Section → Prop
  | nobody (none : hash ∉ node.orphanHandler) : LastLook node hash (.testWaiting hash)
  | remove (vec : List ProposerBlock) : LastLook node hash (.removeWaiting hash vec)

/-- The search for orphans goes on until its end. -/
theorem Handles.releases {hash : H256} (handles : Handles crypto node current after todo)
    (releases : current.Releases crypto hash) :
    (∃ next ∈ todo, next.Releases crypto hash) ∨
      LastLook node hash current ∧ hash ∉ after.orphanHandler ∧ ∀ next ∈ todo, next.Begins := by
  cases handles with
  | skip _ | new _ | rooted _ | orphan _ _ | bucket _ _ | noBucket _ _ | gone _ _ | push _ _ _
  | make _ | unsigned _ _ _ | signed _ _ _ => cases releases
  | publish each _ _ _ publishes goesOn _ _ =>
      have same := (publishes.releases_iff hash).mp releases
      exact .inl ⟨_, List.mem_cons_self, (goesOn.releases_iff hash).mpr same⟩
  | insert each _ _ => exact .inl ⟨_, List.mem_cons_self, releases⟩
  | somebody _ => exact .inl ⟨_, List.mem_cons_self, releases⟩
  | clone _ _ _ => exact .inl ⟨_, List.mem_cons_self, releases⟩
  | nobody parent none =>
      obtain rfl : parent = hash := releases
      exact .inr ⟨.nobody none, none, by simp⟩
  | remove parent vec =>
      obtain rfl : parent = hash := releases
      refine .inr ⟨.remove vec, ?_, fun next member => ?_⟩
      · rw [Finmap.mem_erase]
        exact fun stays => stays.1 rfl
      · obtain ⟨each, -, rfl⟩ := List.mem_map.mp member
        exact begins_verify _ _

theorem Handles.waiting {parent : H256} (handles : Handles crypto node current after todo)
    (member : parent ∈ after.orphanHandler) :
    parent ∈ node.orphanHandler ∨ current.Makes parent := by
  cases handles with
  | skip _ | new _ | rooted _ | orphan _ _ | bucket _ _ | noBucket _ _ | gone _ _ | unsigned _ _ _
  | signed _ _ _ | insert _ _ _ | nobody _ _ | somebody _ | clone _ _ _ => exact .inl member
  | publish _ _ _ _ _ _ _ orphanHandler => exact .inl (orphanHandler ▸ member)
  | push each bucket waiting =>
      rcases Finmap.mem_insert.mp member with rfl | earlier
      · exact .inl (Finmap.mem_of_lookup_eq_some waiting)
      · exact .inl earlier
  | make each =>
      rcases Finmap.mem_insert.mp member with rfl | earlier
      · exact .inr rfl
      · exact .inl earlier
  | remove _ _ => exact .inl (Finmap.mem_erase.mp member).2

/-- A bucket grows, unless it is made anew or released. -/
theorem Handles.keeps {parent : H256} {bucket : List ProposerBlock}
    (handles : Handles crypto node current after todo)
    (found : node.orphanHandler.lookup parent = some bucket) :
    (∃ more, after.orphanHandler.lookup parent = some (bucket ++ more)) ∨
      current.Makes parent ∨ ∃ vec, current = .removeWaiting parent vec := by
  have same (orphanHandler : after.orphanHandler = node.orphanHandler) :
      ∃ more, after.orphanHandler.lookup parent = some (bucket ++ more) :=
    ⟨[], by rw [orphanHandler, found, List.append_nil]⟩
  cases handles with
  | skip _ | new _ | rooted _ | orphan _ _ | bucket _ _ | noBucket _ _ | gone _ _ | unsigned _ _ _
  | signed _ _ _ | insert _ _ _ | nobody _ _ | somebody _ | clone _ _ _ => exact .inl (same rfl)
  | publish _ _ _ _ _ _ _ orphanHandler => exact .inl (same orphanHandler)
  | push each waiting there =>
      left
      by_cases own : parent = each.header.proposerParent
      · subst own
        rw [there, Option.some.injEq] at found
        subst found
        exact ⟨[each], Finmap.lookup_insert _⟩
      · exact ⟨[], by rw [Finmap.lookup_insert_of_ne _ own, found, List.append_nil]⟩
  | make each =>
      by_cases own : parent = each.header.proposerParent
      · exact .inr (.inl own.symm)
      · exact .inl ⟨[], by rw [Finmap.lookup_insert_of_ne _ own, found, List.append_nil]⟩
  | remove hash vec =>
      by_cases own : parent = hash
      · exact .inr (.inr ⟨vec, by rw [own]⟩)
      · exact .inl ⟨[], by rw [Finmap.lookup_erase_ne own, found, List.append_nil]⟩

/-- What is in a bucket was there before, unless the section has added to it. -/
theorem Handles.kept {parent : H256} {bucket : List ProposerBlock}
    (handles : Handles crypto node current after todo)
    (found : after.orphanHandler.lookup parent = some bucket) :
    node.orphanHandler.lookup parent = some bucket ∨ current.Pushes parent ∨
      current.Makes parent := by
  cases handles with
  | skip _ | new _ | rooted _ | orphan _ _ | bucket _ _ | noBucket _ _ | gone _ _ | unsigned _ _ _
  | signed _ _ _ | insert _ _ _ | nobody _ _ | somebody _ | clone _ _ _ => exact .inl found
  | publish _ _ _ _ _ _ _ orphanHandler => exact .inl (orphanHandler ▸ found)
  | push each waiting there =>
      rw [HashMap.lookup_insert_ite] at found
      split at found
      · next same => exact .inr (.inl same.symm)
      · exact .inl found
  | make each =>
      rw [HashMap.lookup_insert_ite] at found
      split at found
      · next same => exact .inr (.inr same.symm)
      · exact .inl found
  | remove hash vec =>
      rw [HashMap.lookup_erase_ite] at found
      split at found
      · cases found
      · exact .inl found

theorem orphanHandler_of_stop {stop : Stop} (ofBlocks : current.OfBlocks)
    (failed : (current.run crypto node).next = .error stop) :
    (current.run crypto node).node.orphanHandler = node.orphanHandler := by
  cases current with
  | testBlock _ | testParent _ | testBucket _ | pushOrphan _ | insertOrphan _ | insertRef _ _
  | insertState _ _ _ | testWaiting _ | removeWaiting _ _ => cases failed
  | verifyRef _ _ _ | readRef _ | readState _ | cloneWaiting _ => rw [Section.run, Node.read_node]
  | applyRef author each currState ref refs =>
      rw [Section.run]
      split
      · rfl
      · rw [Node.read_node]
  | prunePool author each currState =>
      rw [Section.run]
      split
      · rfl
      · rfl
  | insertBlock author each =>
      rw [Section.run]
      split
      · rfl
      · rfl
  | _ => cases ofBlocks

end Handles

/-! ## Threads that do not meet -/

/-- What a thread has left to run. -/
def Status.todo : Status → List Section
  | .running todo => todo
  | .stopped _ => []

namespace Threads

variable {Thread : Type*}

/-- A message with proposer blocks is handled, or a handler goes on. -/
def Event.OnBlocks : Event Thread → Prop
  | .handle _ (.receive (.proposerBlocks _)) => True
  | .handle _ _ => False
  | .run _ => True

instance : DecidablePred fun event : Event Thread => event.OnBlocks := by
  intro event
  cases event with
  | run _ => exact inferInstanceAs (Decidable True)
  | handle _ handler =>
      cases handler with
      | receive message =>
          cases message with
          | proposerBlocks _ => exact inferInstanceAs (Decidable True)
          | _ => exact inferInstanceAs (Decidable False)
      | _ => exact inferInstanceAs (Decidable False)

/-- The search of a thread for orphans of a block may end: another thread searches
too, or none is about to buffer an orphan. -/
def Settles (crypto : Crypto) (threads : Threads Thread) (thread : Thread) (hash : H256) :
    Prop :=
  (∃ other, other ≠ thread ∧
      ∃ current ∈ (threads.status other).todo, current.Releases crypto hash) ∨
    ∀ other, ∀ current ∈ (threads.status other).todo, ¬ current.Buffers hash

/-- No other thread has copied the bucket of a block and has yet to remove it. -/
def NoCopy (threads : Threads Thread) (thread : Thread) (parent : H256) : Prop :=
  ∀ other, other ≠ thread → ∀ current ∈ (threads.status other).todo, ¬ current.Removes parent

/-- A section neither ends the search for orphans while another thread has yet to
buffer one, nor removes a bucket that another thread has found, nor adds to a bucket
that another thread has copied, nor makes one that another thread is about to make. -/
def MayRun (crypto : Crypto) (threads : Threads Thread) (thread : Thread) : Section → Prop
  | .testWaiting hash =>
      hash ∈ threads.node.orphanHandler ∨ threads.Settles crypto thread hash
  | .removeWaiting hash _ => threads.Settles crypto thread hash ∧
      ∀ other, ∀ current ∈ (threads.status other).todo, ¬ current.Pushes hash
  | .pushOrphan each => threads.NoCopy thread each.header.proposerParent
  | .insertOrphan each => threads.NoCopy thread each.header.proposerParent ∧
      ∀ other, other ≠ thread →
        ∀ current ∈ (threads.status other).todo, ¬ current.Makes each.header.proposerParent
  | _ => True

/-- The next section of a thread that goes on does not meet another thread. -/
def Undisturbed (crypto : Crypto) (threads : Threads Thread) : Event Thread → Prop
  | .handle _ _ => True
  | .run thread =>
      ∀ current ∈ (threads.status thread).todo.head?, threads.MayRun crypto thread current

section Decidable

variable [Fintype Thread] [DecidableEq Thread] (threads : Threads Thread)

instance (thread : Thread) (hash : H256) : Decidable (threads.Settles crypto thread hash) :=
  inferInstanceAs (Decidable (_ ∨ _))

instance (thread : Thread) (parent : H256) : Decidable (threads.NoCopy thread parent) :=
  inferInstanceAs (Decidable (∀ other, other ≠ thread →
    ∀ current ∈ (threads.status other).todo, ¬ current.Removes parent))

instance (thread : Thread) : DecidablePred (threads.MayRun crypto thread) := by
  intro current
  cases current with
  | testWaiting hash => exact inferInstanceAs (Decidable (_ ∨ threads.Settles crypto thread hash))
  | removeWaiting hash _ =>
      exact inferInstanceAs (Decidable (threads.Settles crypto thread hash ∧
        ∀ other, ∀ current ∈ (threads.status other).todo, ¬ current.Pushes hash))
  | pushOrphan each =>
      exact inferInstanceAs (Decidable (threads.NoCopy thread each.header.proposerParent))
  | insertOrphan each =>
      exact inferInstanceAs (Decidable (threads.NoCopy thread each.header.proposerParent ∧
        ∀ other, other ≠ thread →
          ∀ current ∈ (threads.status other).todo, ¬ current.Makes each.header.proposerParent))
  | _ => exact inferInstanceAs (Decidable True)

instance : DecidablePred (threads.Undisturbed crypto) := by
  intro event
  cases event with
  | handle _ _ => exact inferInstanceAs (Decidable True)
  | run thread =>
      exact inferInstanceAs (Decidable (∀ current ∈ (threads.status thread).todo.head?,
        threads.MayRun crypto thread current))

end Decidable

/-- Threads know the buckets that they are about to make, to add to or to remove, and
every block of the tree has been searched for orphans, or will be, unless a thread has
been stopped. -/
structure Searched (crypto : Crypto) (threads : Threads Thread) : Prop where
  ofBlocks : ∀ thread, ∀ current ∈ (threads.status thread).todo, current.OfBlocks
  begins : ∀ thread, ∀ current ∈ (threads.status thread).todo.tail, current.Begins
  unmade : ∀ thread, ∀ current ∈ (threads.status thread).todo, ∀ parent,
    current.Makes parent → parent ∉ threads.node.orphanHandler
  found : ∀ thread, ∀ current ∈ (threads.status thread).todo, ∀ parent,
    current.Pushes parent → parent ∈ threads.node.orphanHandler
  copied : ∀ thread parent vec, .removeWaiting parent vec ∈ (threads.status thread).todo →
    ∀ bucket, threads.node.orphanHandler.lookup parent = some bucket → bucket = vec
  settled : ∀ hash ∈ threads.node.blockchain.blocks,
    (∃ thread stop, threads.status thread = .stopped stop) ∨
      (∃ thread, ∃ current ∈ (threads.status thread).todo, current.Releases crypto hash) ∨
      (hash ∉ threads.node.orphanHandler ∧
        ∀ thread, ∀ current ∈ (threads.status thread).todo, ¬ current.Buffers hash)

section Step

variable {threads after : Threads Thread} {event : Event Thread} {thread : Thread}
variable {current : Section} {rest : List Section} {hash : H256}

theorem Undisturbed.mayRun (undisturbed : threads.Undisturbed crypto (.run thread))
    (running : threads.status thread = .running (current :: rest)) :
    threads.MayRun crypto thread current :=
  undisturbed current (by rw [running, Status.todo, List.head?_cons, Option.mem_some])

theorem MayRun.settles (mayRun : threads.MayRun crypto thread current)
    (last : LastLook threads.node hash current) : threads.Settles crypto thread hash := by
  cases last with
  | nobody none => exact mayRun.resolve_left none
  | remove vec => exact mayRun.1

theorem MayRun.not_makes (mayRun : threads.MayRun crypto thread current)
    (makes : current.Makes hash) :
    ∀ other, other ≠ thread → ∀ section' ∈ (threads.status other).todo, ¬ section'.Makes hash := by
  cases current with
  | insertOrphan each =>
      obtain rfl := makes
      exact mayRun.2
  | _ => cases makes

theorem MayRun.noCopy (mayRun : threads.MayRun crypto thread current)
    (adds : current.Pushes hash ∨ current.Makes hash) : threads.NoCopy thread hash := by
  cases current with
  | pushOrphan each =>
      obtain rfl := adds.resolve_right id
      exact mayRun
  | insertOrphan each =>
      obtain rfl := adds.resolve_left id
      exact mayRun.1
  | _ => exact (adds.elim id id).elim

theorem Searched.begins_rest (searched : threads.Searched crypto)
    (running : threads.status thread = .running (current :: rest)) :
    ∀ next ∈ rest, next.Begins :=
  fun next member => searched.begins thread next (by rwa [running])

theorem Searched.absent_of_makes (searched : threads.Searched crypto)
    (running : threads.status thread = .running (current :: rest)) (makes : current.Makes hash) :
    hash ∉ threads.node.orphanHandler :=
  searched.unmade thread current (by rw [running]; exact List.mem_cons_self) hash makes

variable [DecidableEq Thread]

/-- What a step does: a thread turns to the handling of blocks, goes on with it, or is
stopped. -/
inductive Progresses (crypto : Crypto) (threads after : Threads Thread) : Event Thread → Prop
  | starts (thread : Thread) (handler : Handler) (todo : List Section)
      (idle : (threads.status thread).todo = [])
      (fresh : ∀ next ∈ todo, ∃ each, next = .testBlock each)
      (sameNode : after.node = threads.node)
      (notStopped : ∀ stop, threads.status thread ≠ .stopped stop)
      (statuses : after.status = Function.update threads.status thread (.running todo)) :
      Progresses crypto threads after (.handle thread handler)
  | goesOn (thread : Thread) (current : Section) (rest todo : List Section)
      (running : threads.status thread = .running (current :: rest))
      (handles : Handles crypto threads.node current after.node todo)
      (statuses : after.status =
        Function.update threads.status thread (.running (todo ++ rest))) :
      Progresses crypto threads after (.run thread)
  | stops (thread : Thread) (stop : Stop)
      (orphanHandler : after.node.orphanHandler = threads.node.orphanHandler)
      (statuses : after.status = Function.update threads.status thread (.stopped stop)) :
      Progresses crypto threads after (.run thread)

theorem Searched.progresses (searched : threads.Searched crypto) (onBlocks : event.OnBlocks)
    (stepped : threads.step crypto event = some after) : Progresses crypto threads after event := by
  rcases step_cases stepped with ⟨thread, handler, rfl, idle, sameNode, statuses⟩ |
    ⟨thread, current, rest, rfl, running, afterNode, statuses⟩
  · refine .starts thread handler _ (by rw [idle, Status.todo]) ?_ sameNode ?_ statuses
    · intro next member
      cases handler with
      | receive message =>
          cases message with
          | proposerBlocks batch =>
              obtain ⟨each, -, rfl⟩ := List.mem_map.mp member
              exact ⟨each, rfl⟩
          | _ => cases onBlocks
      | _ => cases onBlocks
    · intro stop stopped
      rw [idle] at stopped
      cases stopped
  · have ofBlocks : current.OfBlocks :=
      searched.ofBlocks thread current (by rw [running, Status.todo]; exact List.mem_cons_self)
    rw [Passed.status] at statuses
    split at statuses
    · next todo goesOn =>
        refine .goesOn thread current rest todo running ?_ statuses
        rw [afterNode]
        exact handles_of_run ofBlocks goesOn
    · next stop failed =>
        refine .stops thread stop ?_ statuses
        rw [afterNode, orphanHandler_of_stop ofBlocks failed]

theorem Progresses.stopped (progresses : Progresses crypto threads after event) {stop : Stop}
    (stopped : threads.status thread = .stopped stop) :
    ∃ other, after.status thread = .stopped other := by
  cases progresses with
  | starts mover _ _ _ _ _ notStopped statuses =>
      refine ⟨stop, ?_⟩
      rw [statuses, Function.update_of_ne, stopped]
      rintro rfl
      exact notStopped stop stopped
  | goesOn mover _ _ _ running _ statuses =>
      refine ⟨stop, ?_⟩
      rw [statuses, Function.update_of_ne, stopped]
      rintro rfl
      rw [running] at stopped
      cases stopped
  | stops mover again _ statuses =>
      rw [statuses, Function.update_apply]
      split
      · exact ⟨again, rfl⟩
      · exact ⟨stop, stopped⟩

section GoesOn

variable {todo : List Section} {other : Thread} {next : Section}

theorem origin_of_goesOn (running : threads.status thread = .running (current :: rest))
    (statuses : after.status = Function.update threads.status thread (.running (todo ++ rest)))
    (member : next ∈ (after.status other).todo) :
    other = thread ∧ next ∈ todo ∨
      next ∈ (threads.status other).todo ∧ (other = thread → next ∈ rest) := by
  rw [statuses, Function.update_apply] at member
  split at member
  · next same =>
      rcases List.mem_append.mp member with new | left
      · exact .inl ⟨same, new⟩
      · refine .inr ⟨?_, fun _ => left⟩
        rw [same, running, Status.todo]
        exact List.mem_cons_of_mem _ left
  · next different => exact .inr ⟨member, fun same => absurd same different⟩

theorem stays_of_goesOn (running : threads.status thread = .running (current :: rest))
    (statuses : after.status = Function.update threads.status thread (.running (todo ++ rest)))
    (member : next ∈ (threads.status other).todo) :
    next ∈ (after.status other).todo ∨ other = thread ∧ next = current := by
  rw [statuses, Function.update_apply]
  split
  · next same =>
      rw [same, running, Status.todo] at member
      rcases List.mem_cons.mp member with now | left
      · exact .inr ⟨same, now⟩
      · exact .inl (List.mem_append_right _ left)
  · exact .inl member

theorem arrives_of_goesOn
    (statuses : after.status = Function.update threads.status thread (.running (todo ++ rest)))
    (member : next ∈ todo) : next ∈ (after.status thread).todo := by
  rw [statuses, Function.update_self]
  exact List.mem_append_left _ member

variable {parent : H256} (searched : threads.Searched crypto)
variable (mayRun : threads.MayRun crypto thread current)
variable (running : threads.status thread = .running (current :: rest))
variable (handles : Handles crypto threads.node current after.node todo)
variable (statuses : after.status = Function.update threads.status thread (.running (todo ++ rest)))

include searched mayRun running handles statuses

/-- Nobody makes a bucket that another thread is about to make. -/
theorem Searched.unmade_of_goesOn (member : next ∈ (after.status other).todo)
    (makes : next.Makes parent) : parent ∉ after.node.orphanHandler := by
  rcases origin_of_goesOn running statuses member with ⟨-, new⟩ | ⟨old, notCurrent⟩
  · exact handles.makes new makes
  · intro waiting
    rcases handles.waiting waiting with earlier | now
    · exact searched.unmade other next old parent makes earlier
    · by_cases same : other = thread
      · exact ((searched.begins_rest running next (notCurrent same)).apart parent).1 makes.buffers
      · exact mayRun.not_makes now other same next old makes

/-- Nobody removes a bucket that another thread has found. -/
theorem Searched.found_of_goesOn (member : next ∈ (after.status other).todo)
    (pushes : next.Pushes parent) : parent ∈ after.node.orphanHandler := by
  rcases origin_of_goesOn running statuses member with ⟨-, new⟩ | ⟨old, -⟩
  · exact handles.pushes new pushes
  · have before := searched.found other next old parent pushes
    obtain ⟨bucket, found⟩ := HashMap.lookup_of_mem before
    rcases handles.keeps found with ⟨more, grows⟩ | makes | ⟨vec, rfl⟩
    · exact Finmap.mem_of_lookup_eq_some grows
    · exact absurd before (searched.absent_of_makes running makes)
    · exact absurd pushes (mayRun.2 other next old)

/-- Nobody adds to a bucket that another thread has copied. -/
theorem Searched.copied_of_goesOn {vec bucket : List ProposerBlock}
    (member : .removeWaiting parent vec ∈ (after.status other).todo)
    (found : after.node.orphanHandler.lookup parent = some bucket) : bucket = vec := by
  rcases origin_of_goesOn running statuses member with ⟨-, new⟩ | ⟨old, notCurrent⟩
  · rw [handles.removes new, Option.some.injEq] at found
    exact found.symm
  · rcases handles.kept found with before | adds
    · exact searched.copied other parent vec old bucket before
    · by_cases same : other = thread
      · exact absurd rfl ((searched.begins_rest running _ (notCurrent same)).apart parent).2
      · exact absurd rfl (mayRun.noCopy adds other same _ old)

/-- The search for the orphans of a block goes on, or ends with none left. -/
theorem Searched.settled_of_goesOn (member : hash ∈ after.node.blockchain.blocks) :
    (∃ thread stop, after.status thread = .stopped stop) ∨
      (∃ thread, ∃ current ∈ (after.status thread).todo, current.Releases crypto hash) ∨
      (hash ∉ after.node.orphanHandler ∧
        ∀ thread, ∀ current ∈ (after.status thread).todo, ¬ current.Buffers hash) := by
  rcases handles.inserted member with earlier | ⟨next, new, releases⟩
  · rcases searched.settled hash earlier with ⟨other, stop, stopped⟩ |
      ⟨other, next, old, releases⟩ | ⟨absent, quiet⟩
    · obtain ⟨again, still⟩ :=
        (Progresses.goesOn thread current rest todo running handles statuses).stopped stopped
      exact .inl ⟨other, again, still⟩
    · rcases stays_of_goesOn running statuses old with left | ⟨rfl, rfl⟩
      · exact .inr (.inl ⟨other, next, left, releases⟩)
      · rcases handles.releases releases with ⟨further, new, goesOn⟩ | ⟨last, absent, begins⟩
        · exact .inr (.inl ⟨other, further, arrives_of_goesOn statuses new, goesOn⟩)
        · rcases mayRun.settles last with ⟨another, different, further, left, also⟩ | quiet
          · rcases stays_of_goesOn running statuses left with left | ⟨same, -⟩
            · exact .inr (.inl ⟨another, further, left, also⟩)
            · exact absurd same different
          · refine .inr (.inr ⟨absent, fun another further member => ?_⟩)
            rcases origin_of_goesOn running statuses member with ⟨-, new⟩ | ⟨old, -⟩
            · exact ((begins further new).apart hash).1
            · exact quiet another further old
    · have notCurrent : ¬ current.Buffers hash :=
        quiet thread current (by rw [running]; exact List.mem_cons_self)
      refine .inr (.inr ⟨fun waiting => ?_, fun other next member => ?_⟩)
      · rcases handles.waiting waiting with before | makes
        · exact absent before
        · exact notCurrent makes.buffers
      · rcases origin_of_goesOn running statuses member with ⟨-, new⟩ | ⟨old, -⟩
        · intro buffers
          rcases handles.buffers new buffers with missing | now
          · exact missing earlier
          · exact notCurrent now
        · exact quiet other next old
  · exact .inr (.inl ⟨thread, next, arrives_of_goesOn statuses new, releases⟩)

theorem Searched.goesOn : after.Searched crypto where
  ofBlocks other next member := by
    rcases origin_of_goesOn running statuses member with ⟨-, new⟩ | ⟨old, -⟩
    · exact handles.ofBlocks next new
    · exact searched.ofBlocks other next old
  begins other next member := by
    rw [statuses, Function.update_apply] at member
    split at member
    · cases todo with
      | nil => exact searched.begins_rest running next (List.mem_of_mem_tail member)
      | cons first todo =>
          rcases List.mem_append.mp member with new | left
          · exact handles.begins next new
          · exact searched.begins_rest running next left
    · exact searched.begins other next member
  unmade _ _ member _ makes :=
    searched.unmade_of_goesOn mayRun running handles statuses member makes
  found _ _ member _ pushes :=
    searched.found_of_goesOn mayRun running handles statuses member pushes
  copied _ _ _ member _ found :=
    searched.copied_of_goesOn mayRun running handles statuses member found
  settled _ member := searched.settled_of_goesOn mayRun running handles statuses member

end GoesOn

/-- A thread that turns to a handler has found nothing yet. -/
theorem Searched.starts {todo : List Section} (searched : threads.Searched crypto)
    (idle : (threads.status thread).todo = [])
    (fresh : ∀ next ∈ todo, ∃ each, next = .testBlock each)
    (sameNode : after.node = threads.node)
    (notStopped : ∀ stop, threads.status thread ≠ .stopped stop)
    (statuses : after.status = Function.update threads.status thread (.running todo)) :
    after.Searched crypto := by
  have origin {other : Thread} {next : Section} (member : next ∈ (after.status other).todo) :
      (∃ each, next = .testBlock each) ∨ next ∈ (threads.status other).todo := by
    rw [statuses, Function.update_apply] at member
    split at member
    · exact .inl (fresh next member)
    · exact .inr member
  refine ⟨fun other next member => ?_, fun other next member => ?_,
    fun other next member parent makes => ?_, fun other next member parent pushes => ?_,
    fun other parent vec member => ?_, fun hash member => ?_⟩
  · rcases origin member with ⟨each, rfl⟩ | old
    · trivial
    · exact searched.ofBlocks other next old
  · rw [statuses, Function.update_apply] at member
    split at member
    · obtain ⟨each, rfl⟩ := fresh next (List.mem_of_mem_tail member)
      trivial
    · exact searched.begins other next member
  · rw [sameNode]
    rcases origin member with ⟨each, rfl⟩ | old
    · cases makes
    · exact searched.unmade other next old parent makes
  · rw [sameNode]
    rcases origin member with ⟨each, rfl⟩ | old
    · cases pushes
    · exact searched.found other next old parent pushes
  · rw [sameNode]
    rcases origin member with ⟨each, impossible⟩ | old
    · cases impossible
    · exact searched.copied other parent vec old
  · rw [sameNode] at member ⊢
    rcases searched.settled hash member with ⟨other, stop, stopped⟩ |
      ⟨other, next, old, releases⟩ | ⟨absent, quiet⟩
    · refine .inl ⟨other, stop, ?_⟩
      rw [statuses, Function.update_of_ne, stopped]
      rintro rfl
      exact notStopped stop stopped
    · refine .inr (.inl ⟨other, next, ?_, releases⟩)
      rw [statuses, Function.update_of_ne]
      · exact old
      · rintro rfl
        rw [idle] at old
        cases old
    · refine .inr (.inr ⟨absent, fun other next member => ?_⟩)
      rcases origin member with ⟨each, rfl⟩ | old
      · exact id
      · exact quiet other next old

theorem Searched.stops {stop : Stop} (searched : threads.Searched crypto)
    (orphanHandler : after.node.orphanHandler = threads.node.orphanHandler)
    (statuses : after.status = Function.update threads.status thread (.stopped stop)) :
    after.Searched crypto := by
  have left {other : Thread} {next : Section} (member : next ∈ (after.status other).todo) :
      next ∈ (threads.status other).todo := by
    rw [statuses, Function.update_apply] at member
    split at member
    · cases member
    · exact member
  refine ⟨fun other next member => searched.ofBlocks other next (left member),
    fun other next member => ?_, fun other next member => ?_, fun other next member => ?_,
    fun other parent vec member => ?_,
    fun hash _ => .inl ⟨thread, stop, by rw [statuses, Function.update_self]⟩⟩
  · rw [statuses, Function.update_apply] at member
    split at member
    · cases member
    · exact searched.begins other next member
  · rw [orphanHandler]
    exact searched.unmade other next (left member)
  · rw [orphanHandler]
    exact searched.found other next (left member)
  · rw [orphanHandler]
    exact searched.copied other parent vec (left member)

theorem Searched.step (searched : threads.Searched crypto) (onBlocks : event.OnBlocks)
    (undisturbed : threads.Undisturbed crypto event)
    (stepped : threads.step crypto event = some after) : after.Searched crypto := by
  cases searched.progresses onBlocks stepped with
  | starts thread handler todo idle fresh sameNode notStopped statuses =>
      exact searched.starts idle fresh sameNode notStopped statuses
  | goesOn thread current rest todo running handles statuses =>
      exact searched.goesOn (undisturbed.mayRun running) running handles statuses
  | stops thread stop orphanHandler statuses => exact searched.stops orphanHandler statuses

/-! ## Orphans on their way -/

/-- A thread removes the bucket of a block, and goes on with the orphans that it has
copied from it. -/
def Frees (threads : Threads Thread) (event : Event Thread) (parent : H256)
    (vec : List ProposerBlock) : Prop :=
  ∃ thread rest, event = .run thread ∧
    threads.status thread = .running (.removeWaiting parent vec :: rest)

/-- A thread tests for the parent of a block and does not find it. -/
def FindsOrphan (threads : Threads Thread) (event : Event Thread) (each : ProposerBlock) :
    Prop :=
  ∃ thread rest, event = .run thread ∧
    threads.status thread = .running (.testParent each :: rest) ∧
      each.header.proposerParent ∉ threads.node.blockchain.blocks

/-- The block is in the bucket of its parent. -/
def Buffered (threads : Threads Thread) (each : ProposerBlock) : Prop :=
  ∃ bucket, threads.node.orphanHandler.lookup each.header.proposerParent = some bucket ∧
    each ∈ bucket

/-- The block is in the bucket of its parent or on the way there, or a thread has been
stopped. -/
def Buffering (threads : Threads Thread) (each : ProposerBlock) : Prop :=
  threads.Buffered each ∨
    (∃ thread, ∃ current ∈ (threads.status thread).todo,
      current = .testBucket each ∨ current = .pushOrphan each ∨ current = .insertOrphan each) ∨
    ∃ thread stop, threads.status thread = .stopped stop

/-- A step keeps every bucket that it does not release as a whole. -/
theorem Searched.keeps (searched : threads.Searched crypto) (onBlocks : event.OnBlocks)
    (stepped : threads.step crypto event = some after) {parent : H256}
    {bucket : List ProposerBlock}
    (found : threads.node.orphanHandler.lookup parent = some bucket) :
    (∃ more, after.node.orphanHandler.lookup parent = some (bucket ++ more)) ∨
      threads.Frees event parent bucket := by
  have same (unchanged : after.node.orphanHandler = threads.node.orphanHandler) :
      ∃ more, after.node.orphanHandler.lookup parent = some (bucket ++ more) :=
    ⟨[], by rw [unchanged, found, List.append_nil]⟩
  cases searched.progresses onBlocks stepped with
  | starts thread handler todo idle fresh sameNode notStopped statuses =>
      exact .inl (same (by rw [sameNode]))
  | stops thread stop orphanHandler statuses => exact .inl (same orphanHandler)
  | goesOn thread current rest todo running handles statuses =>
      rcases handles.keeps found with grows | makes | ⟨vec, rfl⟩
      · exact .inl grows
      · exact absurd (Finmap.mem_of_lookup_eq_some found) (searched.absent_of_makes running makes)
      · have copied : bucket = vec :=
          searched.copied thread parent vec (by rw [running]; exact List.mem_cons_self) bucket found
        exact .inr ⟨thread, rest, rfl, by rw [running, copied]⟩

/-- An orphan gets into its bucket, and stays there until it is released. -/
theorem Searched.buffering (searched : threads.Searched crypto) (onBlocks : event.OnBlocks)
    (stepped : threads.step crypto event = some after) {each : ProposerBlock}
    (buffering : threads.Buffering each) :
    after.Buffering each ∨
      ∃ vec, threads.Frees event each.header.proposerParent vec ∧ each ∈ vec := by
  rcases buffering with ⟨bucket, found, inside⟩ | ⟨thread, current, member, buffers⟩ |
    ⟨thread, stop, stopped⟩
  · rcases searched.keeps onBlocks stepped found with ⟨more, grows⟩ | frees
    · exact .inl (.inl ⟨_, grows, List.mem_append_left _ inside⟩)
    · exact .inr ⟨bucket, frees, inside⟩
  · left
    cases searched.progresses onBlocks stepped with
    | starts mover handler todo idle fresh sameNode notStopped statuses =>
        refine .inr (.inl ⟨thread, current, ?_, buffers⟩)
        rw [statuses, Function.update_of_ne]
        · exact member
        · rintro rfl
          rw [idle] at member
          cases member
    | stops mover stop orphanHandler statuses =>
        exact .inr (.inr ⟨mover, stop, by rw [statuses, Function.update_self]⟩)
    | goesOn mover now rest todo running handles statuses =>
        rcases stays_of_goesOn running statuses member with left | ⟨rfl, rfl⟩
        · exact .inr (.inl ⟨thread, current, left, buffers⟩)
        · have arrives {next : Section} :=
            @arrives_of_goesOn _ _ after thread rest _ todo next statuses
          generalize afterNode : after.node = node at handles
          rcases buffers with rfl | rfl | rfl
          · cases handles with
            | bucket _ found =>
                exact .inr (.inl ⟨thread, _, arrives List.mem_cons_self, .inr (.inl rfl)⟩)
            | noBucket _ none =>
                exact .inr (.inl ⟨thread, _, arrives List.mem_cons_self, .inr (.inr rfl)⟩)
            | publish _ _ _ _ publishes => cases publishes
          · have found := searched.found thread _ member _ rfl
            cases handles with
            | gone _ none => exact absurd found none
            | push _ bucket waiting =>
                refine .inl ⟨bucket ++ [each], ?_, List.mem_append_right _ List.mem_cons_self⟩
                rw [afterNode]
                exact Finmap.lookup_insert _
            | publish _ _ _ _ publishes => cases publishes
          · cases handles with
            | make _ =>
                refine .inl ⟨[each], ?_, List.mem_cons_self⟩
                rw [afterNode]
                exact Finmap.lookup_insert _
            | publish _ _ _ _ publishes => cases publishes
  · obtain ⟨again, still⟩ := (searched.progresses onBlocks stepped).stopped stopped
    exact .inl (.inr (.inr ⟨thread, again, still⟩))

/-- A block whose parent is not found is on the way to its bucket. -/
theorem buffering_of_findsOrphan (stepped : threads.step crypto event = some after)
    {each : ProposerBlock} (finds : threads.FindsOrphan event each) : after.Buffering each := by
  obtain ⟨thread, rest, rfl, running, missing⟩ := finds
  rcases step_cases stepped with ⟨_, _, impossible, -⟩ |
    ⟨mover, current, left, same, runningToo, -, statuses⟩
  · cases impossible
  · cases same
    rw [running] at runningToo
    cases runningToo
    refine .inr (.inl ⟨thread, .testBucket each, ?_, .inl rfl⟩)
    rw [statuses, Function.update_self, Passed.status, Section.run]
    simp [missing, Status.todo]

end Step

/-! ## Runs -/

/-- Every thread is idle, and no bucket waits for a block that is in the tree. -/
structure Rested (threads : Threads Thread) : Prop where
  idle : threads.Idle
  orphanHandler : ∀ hash ∈ threads.node.orphanHandler, hash ∉ threads.node.blockchain.blocks

theorem Rested.searched {threads : Threads Thread} (rested : threads.Rested) :
    threads.Searched crypto := by
  have nothing (thread : Thread) : (threads.status thread).todo = [] := by
    rw [rested.idle thread, Status.todo]
  refine ⟨by simp [nothing], by simp [nothing], by simp [nothing], by simp [nothing],
    by simp [nothing], fun hash member => ?_⟩
  exact .inr (.inr ⟨fun waiting => rested.orphanHandler hash waiting member, by simp [nothing]⟩)

theorem Buffering.buffered_of_idle {threads : Threads Thread} {each : ProposerBlock}
    (buffering : threads.Buffering each) (idle : threads.Idle) : threads.Buffered each := by
  rcases buffering with buffered | ⟨thread, current, left, -⟩ | ⟨thread, stop, stopped⟩
  · exact buffered
  · rw [idle thread] at left
    cases left
  · rw [idle thread] at stopped
    cases stopped

section Runs

variable [DecidableEq Thread] {run : Run (@step crypto Thread _) Rested}

theorem searched_of_undisturbed (onBlocks : run.Meets fun _ event => event.OnBlocks)
    (undisturbed : run.Meets (Undisturbed crypto)) :
    ∀ index ≤ run.length, (run.states index).Searched crypto := by
  have meets : run.Meets fun threads event => event.OnBlocks ∧ threads.Undisturbed crypto event :=
    fun index bound => ⟨onBlocks index bound, undisturbed index bound⟩
  exact run.invariant_of_meets meets (Searched crypto) (fun _ rested => rested.searched)
    (fun _ _ _ searched ⟨onBlocks, undisturbed⟩ stepped =>
      searched.step onBlocks undisturbed stepped)

/-- An orphan that was found is in its bucket or on the way there, or has been
released. -/
theorem buffering_of_undisturbed (onBlocks : run.Meets fun _ event => event.OnBlocks)
    (undisturbed : run.Meets (Undisturbed crypto)) {each : ProposerBlock} {found index : Nat}
    (ordered : found < index) (bound : index ≤ run.length)
    (finds : (run.states found).FindsOrphan (run.actions found) each) :
    (run.states index).Buffering each ∨ ∃ middle, found < middle ∧ middle < index ∧
      ∃ vec, (run.states middle).Frees (run.actions middle) each.header.proposerParent vec ∧
        each ∈ vec := by
  induction index, ordered using Nat.le_induction with
  | base => exact .inl (buffering_of_findsOrphan (run.steps found bound) finds)
  | succ index ordered ih =>
      rcases ih (Nat.le_of_lt bound) with buffering | ⟨middle, after, before, freed⟩
      · have searched := searched_of_undisturbed onBlocks undisturbed index (Nat.le_of_lt bound)
        rcases searched.buffering (onBlocks index bound) (run.steps index bound) buffering with
          still | freed
        · exact .inl still
        · exact .inr ⟨index, ordered, Nat.lt_succ_self index, freed⟩
      · exact .inr ⟨middle, after, Nat.lt_succ_of_lt before, freed⟩

/-- When no two threads meet, no orphan is left behind: once all handlers have
finished no bucket waits for a block of the tree, a bucket keeps its orphans until
it is released as a whole, and every orphan that was found is in its bucket or has
been released. -/
theorem none_stranded_of_undisturbed (run : Run (@step crypto Thread _) Rested)
    (onBlocks : run.Meets fun _ event => event.OnBlocks)
    (undisturbed : run.Meets (Undisturbed crypto)) :
    (∀ index ≤ run.length, (run.states index).Idle →
      ∀ hash ∈ (run.states index).node.orphanHandler,
        hash ∉ (run.states index).node.blockchain.blocks) ∧
    (∀ index < run.length, ∀ parent bucket,
      (run.states index).node.orphanHandler.lookup parent = some bucket →
        (∃ more, (run.states (index + 1)).node.orphanHandler.lookup parent =
          some (bucket ++ more)) ∨
        (run.states index).Frees (run.actions index) parent bucket) ∧
    ∀ found index, found < index → index ≤ run.length → (run.states index).Idle →
      ∀ each, (run.states found).FindsOrphan (run.actions found) each →
        (run.states index).Buffered each ∨ ∃ middle, found < middle ∧ middle < index ∧
          ∃ vec, (run.states middle).Frees (run.actions middle) each.header.proposerParent vec ∧
            each ∈ vec := by
  have searched := searched_of_undisturbed onBlocks undisturbed
  refine ⟨fun index bound idle hash waiting member => ?_,
    fun index bound parent bucket found => ?_,
    fun found index ordered bound idle each finds => ?_⟩
  · rcases (searched index bound).settled hash member with ⟨thread, stop, stopped⟩ |
      ⟨thread, current, left, -⟩ | ⟨absent, -⟩
    · rw [idle thread] at stopped
      cases stopped
    · rw [idle thread] at left
      cases left
    · exact absent waiting
  · exact (searched index (Nat.le_of_lt bound)).keeps (onBlocks index bound)
      (run.steps index bound) found
  · rcases buffering_of_undisturbed onBlocks undisturbed ordered bound finds with
      buffering | freed
    · exact .inl (buffering.buffered_of_idle idle)
    · exact .inr freed

end Runs

/-! ## Two workers -/

theorem rested_sample :
    Rested (⟨State.sample.node, fun _ => .running []⟩ : Threads Bool) where
  idle := fun _ => rfl
  orphanHandler := by decide +kernel

/-- A run of two workers on the sample node, which receive a message each. -/
def sampleRun (first second : List ProposerBlock) (schedule : List Bool)
    (enabled : (runActions (step Crypto.sample) ⟨State.sample.node, fun _ => .running []⟩
      (.handle false (.receive (.proposerBlocks first)) ::
        .handle true (.receive (.proposerBlocks second)) ::
          schedule.map .run)).isSome = true) :
    Run (@step Crypto.sample Bool _) Rested :=
  Run.ofActions _ rested_sample _ enabled

/-- One worker buffers the child while the other is accepting the parent. -/
def releasedRun : Run (@step Crypto.sample Bool _) Rested :=
  sampleRun [childBlock] [parentBlock]
    ([false, false, false, true, true, true, false] ++ List.replicate 15 true)
    (by decide +kernel)

theorem none_stranded_releasedRun :
    (∀ hash ∈ (releasedRun.states 24).node.orphanHandler,
        hash ∉ (releasedRun.states 24).node.blockchain.blocks) ∧
      (releasedRun.states 16).Frees (releasedRun.actions 16) (sampleHash 2) [childBlock] ∧
      (∃ middle, 3 < middle ∧ middle < 24 ∧ ∃ vec, (releasedRun.states middle).Frees
        (releasedRun.actions middle) (sampleHash 2) vec ∧ childBlock ∈ vec) ∧
      sampleHash 3 ∈ (releasedRun.states 24).node.blockchain.blocks := by
  have onBlocks : releasedRun.Meets fun _ event => event.OnBlocks := by
    change ∀ index < 24, _
    decide +kernel
  have undisturbed : releasedRun.Meets (Undisturbed Crypto.sample) := by
    change ∀ index < 24, _
    decide +kernel
  have idle : (releasedRun.states 24).Idle := by
    intro thread
    cases thread <;> decide +kernel
  obtain ⟨waiting, keeps, orphans⟩ :=
    none_stranded_of_undisturbed releasedRun onBlocks undisturbed
  have empty : sampleHash 2 ∉ (releasedRun.states 24).node.orphanHandler := by decide +kernel
  refine ⟨waiting 24 (by decide) idle, ?_, ?_, by decide +kernel⟩
  · have removed : sampleHash 2 ∉ (releasedRun.states 17).node.orphanHandler := by
      decide +kernel
    rcases keeps 16 (by decide) (sampleHash 2) [childBlock] (by decide +kernel) with
      ⟨more, stays⟩ | frees
    · exact absurd (Finmap.mem_of_lookup_eq_some stays) removed
    · exact frees
  · rcases orphans 3 24 (by decide) (by decide) idle childBlock
        ⟨false, [], rfl, by rfl, by decide +kernel⟩ with ⟨bucket, stays, -⟩ | freed
    · exact absurd (Finmap.mem_of_lookup_eq_some stays) empty
    · exact freed

/-- One worker finds the parent missing, the other accepts it and finds no orphan,
and the first makes a bucket. -/
def strandedRun : Run (@step Crypto.sample Bool _) Rested :=
  sampleRun [childBlock] [parentBlock]
    ([false, false] ++ List.replicate 9 true ++ [false, false]) (by decide +kernel)

/-- A second child of `parentBlock`. -/
def otherChildBlock : ProposerBlock :=
  ⟨Header.sample 4 (sampleHash 2), ⟨[]⟩⟩

/-- Both workers find no bucket for their children of one block, and make one. -/
def overwrittenRun : Run (@step Crypto.sample Bool _) Rested :=
  sampleRun [childBlock] [otherChildBlock] [false, false, false, true, true, true, false, true]
    (by decide +kernel)

/-- The second child is put into the bucket that has been copied, and is removed with
it. -/
def copiedRun : Run (@step Crypto.sample Bool _) Rested :=
  sampleRun [childBlock, otherChildBlock] [parentBlock]
    (List.replicate 7 false ++ List.replicate 10 true ++ false :: List.replicate 8 true)
    (by decide +kernel)

/-- The bucket is found for the second child, and removed before the child gets in. -/
def removedRun : Run (@step Crypto.sample Bool _) Rested :=
  sampleRun [childBlock, otherChildBlock] [parentBlock]
    (List.replicate 7 false ++ List.replicate 11 true ++ false :: List.replicate 7 true)
    (by decide +kernel)

/-- In the first run the child waits for a block of the tree when all handlers have
finished; in the second the child of the first worker is lost, and in the others the
second child is, although its parent is in the tree. -/
theorem stranded_of_meeting :
    (strandedRun.Meets (fun _ event => event.OnBlocks) ∧ (strandedRun.states 15).Idle ∧
      (strandedRun.states 15).node.orphanHandler.lookup (sampleHash 2) = some [childBlock] ∧
      sampleHash 2 ∈ (strandedRun.states 15).node.blockchain.blocks) ∧
    (overwrittenRun.Meets (fun _ event => event.OnBlocks) ∧ (overwrittenRun.states 10).Idle ∧
      (overwrittenRun.states 9).node.orphanHandler.lookup (sampleHash 2) = some [childBlock] ∧
      (overwrittenRun.states 10).node.orphanHandler.lookup (sampleHash 2) =
        some [otherChildBlock]) ∧
    ∀ run ∈ [copiedRun, removedRun], run.Meets (fun _ event => event.OnBlocks) ∧
      (run.states 28).Idle ∧ sampleHash 2 ∈ (run.states 28).node.blockchain.blocks ∧
      sampleHash 2 ∉ (run.states 28).node.orphanHandler ∧
      sampleHash 4 ∉ (run.states 28).node.blockchain.blocks := by
  refine ⟨⟨?_, ?_, by decide +kernel, by decide +kernel⟩,
    ⟨?_, ?_, by decide +kernel, by decide +kernel⟩, ?_⟩
  · change ∀ index < 15, _
    decide +kernel
  · intro thread
    cases thread <;> decide +kernel
  · change ∀ index < 10, _
    decide +kernel
  · intro thread
    cases thread <;> decide +kernel
  · intro run member
    rcases List.mem_pair.mp member with rfl | rfl
    · refine ⟨?_, ?_, by decide +kernel, by decide +kernel, by decide +kernel⟩
      · change ∀ index < 28, _
        decide +kernel
      · intro thread
        cases thread <;> decide +kernel
    · refine ⟨?_, ?_, by decide +kernel, by decide +kernel, by decide +kernel⟩
      · change ∀ index < 28, _
        decide +kernel
      · intro thread
        cases thread <;> decide +kernel

end Threads

end SimplifiedPrism
