import SimplifiedPrism.Lookups
import SimplifiedPrism.MinerAcceptance

/-!
# The release of orphans

`new_parent` clones the bucket of a block, removes it from the buffer, and calls
itself for every block of the clone that it has accepted.  What it accepts is what
the buffer leads to from the block through buckets of correctly signed blocks.  A
bucket is opened once: a repeated block finds no bucket when `new_parent` is called
for it again.
-/

namespace SimplifiedPrism

variable {crypto : Crypto}

/-! ## The recursion -/

/-- Go on with the maps that are left, unless the thread has panicked. -/
def Outcome.andThen (outcome : Outcome) (next : Node → Outcome) : Outcome :=
  if outcome.panic.isSome then
    outcome
  else
    let rest := next outcome.node
    { rest with sent := outcome.sent ++ rest.sent }

/-- The messages sent before stay in front. -/
def Outcome.after (outcome : Outcome) (sent : List Outgoing) : Outcome :=
  { outcome with sent := sent ++ outcome.sent }

theorem Outcome.after_andThen (outcome : Outcome) (sent : List Outgoing) (next : Node → Outcome) :
    (outcome.andThen next).after sent = (outcome.after sent).andThen next := by
  unfold andThen
  by_cases panicked : outcome.panic.isSome = true
  · simp [after, panicked]
  · simp [after, panicked, List.append_assoc]

theorem runTasks_append (node : Node) (first second : List Task) :
    runTasks crypto node (first ++ second) =
      (runTasks crypto node first).andThen fun node => runTasks crypto node second := by
  fun_induction runTasks crypto node first with
  | case1 node => simp [Outcome.andThen]
  | case2 node task rest panicked ran =>
      rw [List.cons_append, runTasks]
      split
      · next failed =>
          rw [ran, Except.error.injEq] at failed
          simp [Outcome.andThen, failed]
      · next completed =>
          rw [ran] at completed
          cases completed
  | case3 node task rest progress ran outcome ih =>
      rw [List.cons_append, runTasks]
      split
      · next failed =>
          rw [ran] at failed
          cases failed
      · next completed =>
          rw [ran, Except.ok.injEq] at completed
          subst completed
          rw [← List.append_assoc, ih]
          exact Outcome.after_andThen _ progress.sent _

variable (crypto) in
/-- The loop of `new_parent` over the cloned bucket, as the source writes it: every
accepted block is followed by a call of `new_parent` for it. -/
def orphanLoop (node : Node) : List ProposerBlock → Outcome
  | [] => { node }
  | each :: vec =>
      match handleOrphan crypto node each with
      | .error panicked => { node := panicked.node, panic := some panicked.panic }
      | .ok progress =>
          let called : Outcome :=
            if progress.todo = [] then { node := progress.node }
            else newParent crypto progress.node each
          (called.after progress.sent).andThen fun node => orphanLoop node vec

theorem todo_of_handleOrphan {node : Node} {each : ProposerBlock} {progress : Progress}
    (ran : handleOrphan crypto node each = .ok progress) :
    progress.todo = [] ∨ progress.todo = [.newParent each] := by
  simp only [handleOrphan, acceptProposerBlock, bind_eq_ok, Node.attempt_eq_ok] at ran
  obtain ⟨valid, -, ran⟩ := ran
  split at ran
  · cases ran
    exact .inl rfl
  · obtain ⟨after, -, ran⟩ := bind_eq_ok.mp ran
    cases ran
    exact .inr rfl

theorem runTasks_orphans (node : Node) (vec : List ProposerBlock) :
    runTasks crypto node (vec.map .orphan) = orphanLoop crypto node vec := by
  induction vec generalizing node with
  | nil => simp [runTasks, orphanLoop]
  | cons each vec ih =>
      rw [List.map_cons, runTasks, orphanLoop]
      split
      · next panicked failed =>
          rw [runTask] at failed
          rw [failed]
      · next progress completed =>
          rw [runTask] at completed
          rw [completed]
          have called : runTasks crypto progress.node progress.todo =
              if progress.todo = [] then { node := progress.node }
              else newParent crypto progress.node each := by
            rcases todo_of_handleOrphan completed with nothing | calls
            · rw [nothing, if_pos rfl, runTasks]
            · rw [calls, if_neg (by simp), newParent]
          simp only [runTasks_append, called, ih]
          exact Outcome.after_andThen _ progress.sent _

/-- `new_parent` as the source writes it, a recursion inside of a loop. -/
theorem newParent_eq (node : Node) (block : ProposerBlock) :
    newParent crypto node block =
      match node.orphanHandler.lookup (block.hash crypto) with
      | none => { node }
      | some vec =>
          orphanLoop crypto
            { node with orphanHandler := node.orphanHandler.erase (block.hash crypto) } vec := by
  rw [newParent, runTasks]
  simp only [runTask, handleNewParent]
  cases found : node.orphanHandler.lookup (block.hash crypto) with
  | none => simp [runTasks]
  | some vec => simp [runTasks_orphans]

/-! ## What a release leads to -/

/-- All transactions that the block refers to are correctly signed. -/
def SignedOrphan (crypto : Crypto) (node : Node) (orphan : ProposerBlock) : Prop :=
  signedCorrectly crypto node.txBlockPool orphan.content.proposerContent = .ok true

/-- The buffered blocks that are reached from a block through buckets, by way of
correctly signed blocks. -/
inductive Released (crypto : Crypto) (node : Node) (block : ProposerBlock) : ProposerBlock → Prop
  | waiting {vec : List ProposerBlock} {orphan : ProposerBlock}
      (found : node.orphanHandler.lookup (block.hash crypto) = some vec) (member : orphan ∈ vec)
      (signed : SignedOrphan crypto node orphan) : Released crypto node block orphan
  | further {parent orphan : ProposerBlock} {vec : List ProposerBlock}
      (released : Released crypto node block parent)
      (found : node.orphanHandler.lookup (parent.hash crypto) = some vec) (member : orphan ∈ vec)
      (signed : SignedOrphan crypto node orphan) : Released crypto node block orphan

/-- A block has its references, its ledger and its height. -/
structure Node.HasEntries (node : Node) (hash : H256) : Prop where
  txBlockRef : hash ∈ node.txBlockRef
  globState : hash ∈ node.globState
  heights : hash ∈ node.blockchain.heights

/-- A block has just been accepted: it has its entries, orphans wait under the hash
of their parent and refer to transaction blocks of the pool, whose transactions
have an index and an output for every input. -/
structure JustAccepted (crypto : Crypto) (node : Node) (block : ProposerBlock) : Prop where
  entries : node.HasEntries (block.hash crypto)
  indexed : PoolIndexed node.txPool
  waiting : ∀ parent vec, node.orphanHandler.lookup parent = some vec →
    ∀ orphan ∈ vec, orphan.header.proposerParent = parent
  pooled : ∀ parent vec, node.orphanHandler.lookup parent = some vec →
    ∀ orphan ∈ vec, ∃ txs,
      referenced node.txBlockPool orphan.content.proposerContent = some txs ∧
        ∀ tx ∈ txs, tx.transaction.WellShaped

/-- The key is the hash of the block or of one that has been inserted since. -/
def Opened (crypto : Crypto) (block : ProposerBlock) (inserted : List ProposerBlock)
    (key : H256) : Prop :=
  key = block.hash crypto ∨ ∃ orphan ∈ inserted, orphan.hash crypto = key

/-- What `new_parent` does to the tree and the buffer.  The blocks that it inserts
come in an order in which each follows its parent. -/
structure Releases (crypto : Crypto) (node : Node) (block : ProposerBlock) (after : Node) :
    Prop where
  inserted : ∃ inserted : List ProposerBlock,
    (∀ orphan, orphan ∈ inserted ↔ Released crypto node block orphan) ∧
      inserted.foldlM (Blockchain.insert crypto) node.blockchain = .ok after.blockchain ∧
      ∀ earlier orphan later, inserted = earlier ++ orphan :: later →
        Opened crypto block earlier orphan.header.proposerParent
  blocks : ∀ hash, hash ∈ after.blockchain.blocks ↔
    hash ∈ node.blockchain.blocks ∨
      ∃ orphan, Released crypto node block orphan ∧ orphan.hash crypto = hash
  removed : ∀ key, (key = block.hash crypto ∨
    ∃ orphan, Released crypto node block orphan ∧ orphan.hash crypto = key) →
      key ∉ after.orphanHandler
  untouched : ∀ key, key ≠ block.hash crypto →
    (∀ orphan, Released crypto node block orphan → orphan.hash crypto ≠ key) →
      after.orphanHandler.lookup key = node.orphanHandler.lookup key

section Lists

variable {block orphan : ProposerBlock} {inserted : List ProposerBlock} {key : H256}

theorem Opened.concat (opened : Opened crypto block inserted key) (orphan : ProposerBlock) :
    Opened crypto block (inserted ++ [orphan]) key := by
  rcases opened with same | ⟨earlier, member, same⟩
  · exact .inl same
  · exact .inr ⟨earlier, List.mem_append_left _ member, same⟩

theorem opened_concat_iff : Opened crypto block (inserted ++ [orphan]) key ↔
    Opened crypto block inserted key ∨ key = orphan.hash crypto := by
  constructor
  · rintro (same | ⟨other, member, same⟩)
    · exact .inl (.inl same)
    · rw [List.mem_append, List.mem_singleton] at member
      rcases member with earlier | rfl
      · exact .inl (.inr ⟨other, earlier, same⟩)
      · exact .inr same.symm
  · rintro (opened | rfl)
    · exact opened.concat orphan
    · exact .inr ⟨orphan, by simp, rfl⟩

/-- What holds of every element, given those before it, and of one that is added at
the end, holds of every element afterwards. -/
theorem forall_split_concat {α : Type*} {list : List α} {last : α} {holds : List α → α → Prop}
    (before : ∀ earlier element later, list = earlier ++ element :: later → holds earlier element)
    (added : holds list last) :
    ∀ earlier element later, list ++ [last] = earlier ++ element :: later →
      holds earlier element := by
  intro earlier element later split
  rcases List.eq_nil_or_concat later with rfl | ⟨front, other, rfl⟩
  · obtain ⟨rfl, same⟩ := List.append_inj' split rfl
    cases same
    exact added
  · rw [List.concat_eq_append, ← List.cons_append, ← List.append_assoc] at split
    obtain ⟨same, -⟩ := List.append_inj' split rfl
    exact before earlier element front same

theorem mem_blocks_of_foldlM {chain after : Blockchain} {hash : H256}
    (insertions : inserted.foldlM (Blockchain.insert crypto) chain = .ok after) :
    hash ∈ after.blocks ↔ hash ∈ chain.blocks ∨ ∃ orphan ∈ inserted, orphan.hash crypto = hash := by
  induction inserted generalizing chain with
  | nil =>
      cases insertions
      simp
  | cons orphan inserted ih =>
      rw [List.foldlM_cons] at insertions
      obtain ⟨next, insertion, insertions⟩ := bind_eq_ok.mp insertions
      obtain ⟨_, -, blocks, -⟩ := Blockchain.insert_ok insertion
      rw [ih insertions, blocks, Finmap.mem_insert, List.exists_mem_cons_iff, eq_comm (a := hash)]
      tauto

end Lists

/-! ## Between two tasks -/

/-- The bucket of a key is gone, and the correctly signed blocks that were in it
are inserted or still to be handled. -/
structure Drained (crypto : Crypto) (start : Node) (inserted : List ProposerBlock) (node : Node)
    (todo : List Task) (key : H256) : Prop where
  gone : node.orphanHandler.lookup key = none
  handled : ∀ vec, start.orphanHandler.lookup key = some vec → ∀ orphan ∈ vec,
    SignedOrphan crypto start orphan → orphan ∈ inserted ∨ .orphan orphan ∈ todo

/-- The task opens the bucket of an inserted block, or handles a block out of a
bucket that has been opened. -/
def Task.Follows (crypto : Crypto) (start : Node) (block : ProposerBlock)
    (inserted : List ProposerBlock) : Task → Prop
  | .newParent parent => Opened crypto block inserted (parent.hash crypto)
  | .orphan each => ∃ key vec, Opened crypto block inserted key ∧
      start.orphanHandler.lookup key = some vec ∧ each ∈ vec
  | _ => False

/-- What holds between the tasks of a release: the inserted blocks are released
ones, each after its parent, and every bucket is as it was, about to be opened, or
drained. -/
structure Releasing (crypto : Crypto) (start : Node) (block : ProposerBlock)
    (inserted : List ProposerBlock) (node : Node) (todo : List Task) : Prop where
  pool : node.txBlockPool = start.txBlockPool
  indexed : PoolIndexed node.txPool
  entries : ∀ key, Opened crypto block inserted key → node.HasEntries key
  follows : ∀ task ∈ todo, task.Follows crypto start block inserted
  released : ∀ orphan ∈ inserted, Released crypto start block orphan
  chain : inserted.foldlM (Blockchain.insert crypto) start.blockchain = .ok node.blockchain
  order : ∀ earlier orphan later, inserted = earlier ++ orphan :: later →
    Opened crypto block earlier orphan.header.proposerParent
  buckets : ∀ key, node.orphanHandler.lookup key = start.orphanHandler.lookup key ∨
    Opened crypto block inserted key ∧ Drained crypto start inserted node todo key
  opened : ∀ key, Opened crypto block inserted key →
    (∃ parent, .newParent parent ∈ todo ∧ parent.hash crypto = key) ∨
      Drained crypto start inserted node todo key

section Steps

variable {start node after : Node} {block orphan : ProposerBlock} {inserted : List ProposerBlock}
  {todo rest : List Task} {task : Task} {key : H256}

theorem Task.Follows.concat (follows : task.Follows crypto start block inserted)
    (orphan : ProposerBlock) : task.Follows crypto start block (inserted ++ [orphan]) := by
  cases task with
  | newParent parent => exact Opened.concat follows orphan
  | orphan each =>
      obtain ⟨key, vec, opened, found, member⟩ := follows
      exact ⟨key, vec, opened.concat orphan, found, member⟩
  | _ => exact follows.elim

theorem Drained.mono {more : List ProposerBlock} {later : List Task}
    (drained : Drained crypto start inserted node todo key)
    (gone : after.orphanHandler.lookup key = none)
    (kept : ∀ orphan, SignedOrphan crypto start orphan →
      orphan ∈ inserted ∨ .orphan orphan ∈ todo → orphan ∈ more ∨ .orphan orphan ∈ later) :
    Drained crypto start more after later key where
  gone := gone
  handled := fun vec found orphan member signed =>
    kept orphan signed (drained.handled vec found orphan member signed)

theorem JustAccepted.releasing (accepted : JustAccepted crypto node block) :
    Releasing crypto node block [] node [.newParent block] where
  pool := rfl
  indexed := accepted.indexed
  entries := by
    rintro key (rfl | ⟨orphan, member, -⟩)
    · exact accepted.entries
    · cases member
  follows := by
    intro task member
    rw [List.mem_singleton.mp member]
    exact .inl rfl
  released := by simp
  chain := rfl
  order := by
    intro earlier orphan later split
    simp at split
  buckets := fun key => .inl rfl
  opened := by
    rintro key (rfl | ⟨orphan, member, -⟩)
    · exact .inl ⟨block, List.mem_singleton_self _, rfl⟩
    · cases member

/-- A block of a bucket that has been opened is released when it is correctly
signed. -/
theorem Releasing.released_of_opened (releasing : Releasing crypto start block inserted node todo)
    {vec : List ProposerBlock} (opened : Opened crypto block inserted key)
    (found : start.orphanHandler.lookup key = some vec) (member : orphan ∈ vec)
    (signed : SignedOrphan crypto start orphan) : Released crypto start block orphan := by
  rcases opened with rfl | ⟨parent, inInserted, rfl⟩
  · exact .waiting found member signed
  · exact .further (releasing.released parent inInserted) found member signed

/-- The orphans that wait for their turn do so behind a call of `new_parent`. -/
theorem orphan_mem_of_cons {parent : ProposerBlock}
    (member : Task.orphan orphan ∈ Task.newParent parent :: rest) : Task.orphan orphan ∈ rest := by
  simpa using member

/-- `new_parent` finds no bucket: it has been opened before, or there never was one. -/
theorem Releasing.findNone {parent : ProposerBlock}
    (releasing : Releasing crypto start block inserted node (.newParent parent :: rest))
    (missing : node.orphanHandler.lookup (parent.hash crypto) = none) :
    Releasing crypto start block inserted node rest := by
  have others : ∀ key, Drained crypto start inserted node (.newParent parent :: rest) key →
      Drained crypto start inserted node rest key := fun key drained =>
    drained.mono drained.gone fun _ _ => Or.imp_right orphan_mem_of_cons
  have drained : Drained crypto start inserted node rest (parent.hash crypto) := by
    rcases releasing.buckets (parent.hash crypto) with same | ⟨-, drained⟩
    · refine ⟨missing, fun vec found => ?_⟩
      rw [← same, missing] at found
      cases found
    · exact others _ drained
  refine { releasing with follows := ?_, buckets := ?_, opened := ?_ }
  · exact fun task member => releasing.follows task (List.mem_cons_of_mem _ member)
  · intro key
    exact (releasing.buckets key).imp_right fun ⟨isOpened, drained⟩ =>
      ⟨isOpened, others key drained⟩
  · intro key isOpened
    rcases releasing.opened key isOpened with ⟨other, member, same⟩ | drainedKey
    · rcases List.mem_cons.mp member with own | later
      · cases own
        exact .inr (same ▸ drained)
      · exact .inl ⟨other, later, same⟩
    · exact .inr (others key drainedKey)

/-- `new_parent` finds a bucket, which it removes, and will handle its blocks. -/
theorem Releasing.findSome {parent : ProposerBlock} {vec : List ProposerBlock}
    (releasing : Releasing crypto start block inserted node (.newParent parent :: rest))
    (waiting : node.orphanHandler.lookup (parent.hash crypto) = some vec) :
    Releasing crypto start block inserted
      { node with orphanHandler := node.orphanHandler.erase (parent.hash crypto) }
      (vec.map .orphan ++ rest) := by
  have opened : Opened crypto block inserted (parent.hash crypto) :=
    releasing.follows _ List.mem_cons_self
  have bucket : start.orphanHandler.lookup (parent.hash crypto) = some vec := by
    rcases releasing.buckets (parent.hash crypto) with same | ⟨-, drained⟩
    · rw [← same, waiting]
    · rw [drained.gone] at waiting
      cases waiting
  have drained : Drained crypto start inserted
      { node with orphanHandler := node.orphanHandler.erase (parent.hash crypto) }
      (vec.map .orphan ++ rest) (parent.hash crypto) := by
    constructor
    · exact Finmap.lookup_erase _ _
    · intro other found orphan member _
      rw [bucket, Option.some.injEq] at found
      subst found
      exact .inr (List.mem_append_left _ (List.mem_map.mpr ⟨orphan, member, rfl⟩))
  have others : ∀ key, Drained crypto start inserted node (.newParent parent :: rest) key →
      Drained crypto start inserted
        { node with orphanHandler := node.orphanHandler.erase (parent.hash crypto) }
        (vec.map .orphan ++ rest) key := by
    intro key drainedKey
    refine drainedKey.mono ?_ fun _ _ =>
      Or.imp_right fun member => List.mem_append_right _ (orphan_mem_of_cons member)
    rw [HashMap.lookup_erase_ite, drainedKey.gone, ite_self]
  refine { releasing with entries := ?_, follows := ?_, buckets := ?_, opened := ?_ }
  · exact fun key isOpened => { releasing.entries key isOpened with }
  · intro task member
    rcases List.mem_append.mp member with new | later
    · obtain ⟨orphan, inBucket, rfl⟩ := List.mem_map.mp new
      exact ⟨_, vec, opened, bucket, inBucket⟩
    · exact releasing.follows task (List.mem_cons_of_mem _ later)
  · intro key
    by_cases same : key = parent.hash crypto
    · subst same
      exact .inr ⟨opened, drained⟩
    · rcases releasing.buckets key with kept | ⟨isOpened, drainedKey⟩
      · left
        rw [HashMap.lookup_erase_ite, if_neg same, kept]
      · exact .inr ⟨isOpened, others key drainedKey⟩
  · intro key isOpened
    rcases releasing.opened key isOpened with ⟨other, member, same⟩ | drainedKey
    · rcases List.mem_cons.mp member with own | later
      · cases own
        exact .inr (same ▸ drained)
      · exact .inl ⟨other, List.mem_append_right _ later, same⟩
    · exact .inr (others key drainedKey)

theorem Releasing.newParent {parent : ProposerBlock}
    (releasing : Releasing crypto start block inserted node (.newParent parent :: rest)) :
    Releasing crypto start block inserted (handleNewParent crypto node parent).node
      ((handleNewParent crypto node parent).todo ++ rest) := by
  rw [handleNewParent]
  split
  · next missing => exact releasing.findNone missing
  · next vec waiting => exact releasing.findSome waiting

theorem Releasing.pass
    (releasing : Releasing crypto start block inserted node (.orphan orphan :: rest))
    (unsigned : ¬ SignedOrphan crypto start orphan) :
    Releasing crypto start block inserted node rest := by
  have kept : ∀ other, SignedOrphan crypto start other →
      other ∈ inserted ∨ .orphan other ∈ Task.orphan orphan :: rest →
        other ∈ inserted ∨ .orphan other ∈ rest := by
    rintro other signed (member | member)
    · exact .inl member
    · rcases List.mem_cons.mp member with own | later
      · cases own
        exact absurd signed unsigned
      · exact .inr later
  refine { releasing with follows := ?_, buckets := ?_, opened := ?_ }
  · exact fun task member => releasing.follows task (List.mem_cons_of_mem _ member)
  · intro key
    exact (releasing.buckets key).imp_right fun ⟨isOpened, drained⟩ =>
      ⟨isOpened, drained.mono drained.gone kept⟩
  · intro key isOpened
    rcases releasing.opened key isOpened with ⟨parent, member, same⟩ | drained
    · rcases List.mem_cons.mp member with own | later
      · cases own
      · exact .inl ⟨parent, later, same⟩
    · exact .inr (drained.mono drained.gone kept)

/-- The entries of a node stay when a block is accepted, which gets its own. -/
theorem Node.HasEntries.accepts {parentLedger ledger : Ledger} {txs : List SignedTransaction}
    (accepts : Accepts crypto node orphan parentLedger txs ledger after)
    (entries : node.HasEntries key ∨ key = orphan.hash crypto) : after.HasEntries key := by
  obtain ⟨parentRef, -, txBlockRef⟩ := accepts.txBlockRef
  obtain ⟨_, -, -, heights, -⟩ := Blockchain.insert_ok accepts.inserted
  constructor
  · rw [txBlockRef, Finmap.mem_insert]
    exact entries.symm.imp_right Node.HasEntries.txBlockRef
  · rw [accepts.globState, Finmap.mem_insert]
    exact entries.symm.imp_right Node.HasEntries.globState
  · rw [heights, Finmap.mem_insert]
    exact entries.symm.imp_right Node.HasEntries.heights

theorem Releasing.accept
    (releasing : Releasing crypto start block inserted node (.orphan orphan :: rest))
    (waiting : ∀ parent vec, start.orphanHandler.lookup parent = some vec →
      ∀ orphan ∈ vec, orphan.header.proposerParent = parent)
    (signed : SignedOrphan crypto start orphan) {parentLedger ledger : Ledger}
    {txs : List SignedTransaction}
    (accepts : Accepts crypto node orphan parentLedger txs ledger after) :
    Releasing crypto start block (inserted ++ [orphan]) after (.newParent orphan :: rest) := by
  obtain ⟨bucketKey, vec, bucketOpened, found, inBucket⟩ :=
    releasing.follows _ List.mem_cons_self
  have parent : orphan.header.proposerParent = bucketKey :=
    waiting bucketKey vec found orphan inBucket
  have kept : ∀ other, SignedOrphan crypto start other →
      other ∈ inserted ∨ .orphan other ∈ Task.orphan orphan :: rest →
        other ∈ inserted ++ [orphan] ∨ .orphan other ∈ Task.newParent orphan :: rest := by
    rintro other - (member | member)
    · exact .inl (List.mem_append_left _ member)
    · rcases List.mem_cons.mp member with own | later
      · cases own
        exact .inl (by simp)
      · exact .inr (List.mem_cons_of_mem _ later)
  have drains : ∀ key, Drained crypto start inserted node (.orphan orphan :: rest) key →
      Drained crypto start (inserted ++ [orphan]) after (.newParent orphan :: rest) key := by
    intro key drained
    refine drained.mono ?_ kept
    rw [accepts.orphanHandler]
    exact drained.gone
  constructor
  case pool => rw [accepts.txBlockPool, releasing.pool]
  case indexed =>
    exact fun hash tx pooled => releasing.indexed hash tx (accepts.txPool hash tx pooled)
  case entries =>
    intro key isOpened
    apply Node.HasEntries.accepts accepts
    exact (opened_concat_iff.mp isOpened).imp_left (releasing.entries key)
  case follows =>
    intro task member
    rcases List.mem_cons.mp member with rfl | later
    · exact .inr ⟨orphan, by simp, rfl⟩
    · exact (releasing.follows task (List.mem_cons_of_mem _ later)).concat orphan
  case released =>
    intro other member
    rw [List.mem_append, List.mem_singleton] at member
    rcases member with earlier | rfl
    · exact releasing.released other earlier
    · exact releasing.released_of_opened bucketOpened found inBucket signed
  case chain =>
    rw [List.foldlM_append, releasing.chain, ok_bind, List.foldlM_cons, accepts.inserted]
    rfl
  case order =>
    refine forall_split_concat releasing.order ?_
    rw [parent]
    exact bucketOpened
  case buckets =>
    intro key
    rw [accepts.orphanHandler]
    exact (releasing.buckets key).imp_right fun ⟨isOpened, drained⟩ =>
      ⟨isOpened.concat orphan, drains key drained⟩
  case opened =>
    intro key isOpened
    rcases opened_concat_iff.mp isOpened with earlier | rfl
    · rcases releasing.opened key earlier with ⟨other, member, same⟩ | drained
      · rcases List.mem_cons.mp member with own | later
        · cases own
        · exact .inl ⟨other, List.mem_cons_of_mem _ later, same⟩
      · exact .inr (drains key drained)
    · exact .inl ⟨orphan, List.mem_cons_self, rfl⟩

/-- Every task of a release runs through and keeps what holds between them. -/
theorem Releasing.step (accepted : JustAccepted crypto start block)
    (releasing : Releasing crypto start block inserted node (task :: rest)) :
    ∃ progress, runTask crypto node task = .ok progress ∧ ∃ inserted,
      Releasing crypto start block inserted progress.node (progress.todo ++ rest) := by
  have follows := releasing.follows task List.mem_cons_self
  cases task with
  | newParent parent => exact ⟨_, rfl, inserted, releasing.newParent⟩
  | orphan each =>
      obtain ⟨key, vec, opened, found, member⟩ := follows
      obtain ⟨txs, collected, shapes⟩ := accepted.pooled key vec found each member
      have parent := accepted.waiting key vec found each member
      have present := mem_pool_of_referenced collected
      rw [← releasing.pool] at collected present
      obtain ⟨valid, checked⟩ : ∃ valid,
          signedCorrectly crypto node.txBlockPool each.content.proposerContent = .ok valid :=
        signedCorrectly_isOk.mpr (readPooled_of_mem present)
      cases valid with
      | false =>
          have unsigned : ¬ SignedOrphan crypto start each := by
            rw [SignedOrphan, ← releasing.pool, checked]
            simp
          refine ⟨{ node }, ?_, inserted, releasing.pass unsigned⟩
          rw [runTask, handleOrphan, acceptProposerBlock, checked]
          rfl
      | true =>
          have signed : SignedOrphan crypto start each := by
            rw [SignedOrphan, ← releasing.pool, checked]
          have entries := releasing.entries key opened
          rw [← parent] at entries
          have sound : ∀ tx ∈ txs, tx.Sound crypto := by
            obtain ⟨same, again, verified⟩ := signedCorrectly_eq_true.mp checked
            rw [collected, Option.some.injEq] at again
            subst again
            exact fun tx member => ⟨verified tx member, shapes tx member⟩
          obtain ⟨after, applied, ran⟩ := acceptProposerBlock_isOk
            ⟨entries.txBlockRef, entries.globState, entries.heights⟩ releasing.indexed collected
            sound
          obtain ⟨_, _, _, accepts⟩ := accepts_of_apply applied
          exact ⟨_, ran, inserted ++ [each], releasing.accept accepted.waiting signed accepts⟩
  | _ => exact follows.elim

end Steps

/-! ## The whole release -/

/-- `new_parent` comes to an end without a panic.  It inserts the released blocks,
each after its parent, removes the buckets that it has opened, and leaves all
others as they are. -/
theorem newParent_releases {node : Node} {block : ProposerBlock}
    (accepted : JustAccepted crypto node block) :
    (newParent crypto node block).panic = none ∧
      Releases crypto node block (newParent crypto node block).node := by
  obtain ⟨completed, inserted, releasing⟩ := runTasks_invariant
    (fun after todo => ∃ inserted, Releasing crypto node block inserted after todo)
    (fun _ _ _ ⟨_, releasing⟩ => releasing.step accepted) node [.newParent block]
    ⟨[], accepted.releasing⟩
  refine ⟨completed, ?_⟩
  -- nothing is left to do, so that every opened bucket is drained
  have drained : ∀ key, Opened crypto block inserted key →
      Drained crypto node inserted (newParent crypto node block).node [] key := by
    intro key opened
    refine (releasing.opened key opened).resolve_left ?_
    rintro ⟨parent, impossible, -⟩
    cases impossible
  have handled : ∀ key vec, Opened crypto block inserted key →
      node.orphanHandler.lookup key = some vec → ∀ orphan ∈ vec,
        SignedOrphan crypto node orphan → orphan ∈ inserted := by
    intro key vec opened found orphan member signed
    exact ((drained key opened).handled vec found orphan member signed).resolve_right
      List.not_mem_nil
  have member_iff : ∀ orphan, orphan ∈ inserted ↔ Released crypto node block orphan := by
    intro orphan
    refine ⟨releasing.released orphan, fun released => ?_⟩
    induction released with
    | waiting found member signed => exact handled _ _ (.inl rfl) found _ member signed
    | further _ found member signed ih =>
        exact handled _ _ (.inr ⟨_, ih, rfl⟩) found _ member signed
  have opened_iff : ∀ key, Opened crypto block inserted key ↔ key = block.hash crypto ∨
      ∃ orphan, Released crypto node block orphan ∧ orphan.hash crypto = key := by
    intro key
    simp only [Opened, member_iff]
  constructor
  · exact ⟨inserted, member_iff, releasing.chain, releasing.order⟩
  · intro hash
    have blocks : hash ∈ (newParent crypto node block).node.blockchain.blocks ↔ _ :=
      mem_blocks_of_foldlM releasing.chain
    simp only [member_iff] at blocks
    exact blocks
  · intro key isOpened
    exact Finmap.lookup_eq_none.mp (drained key ((opened_iff key).mpr isOpened)).gone
  · intro key other notReleased
    refine (releasing.buckets key).resolve_right ?_
    rintro ⟨opened, -⟩
    rcases (opened_iff key).mp opened with same | ⟨orphan, released, same⟩
    · exact other same
    · exact notReleased orphan released same

/-- A block of the tree of a reachable node has just been accepted in this sense,
when the orphans refer to transaction blocks as they should. -/
theorem justAccepted_of_published {node : Node} {block : ProposerBlock}
    (formed : node.WellFormed crypto) (published : node.Published)
    (known : block.hash crypto ∈ node.blockchain.blocks)
    (pooled : ∀ parent vec, node.orphanHandler.lookup parent = some vec → ∀ orphan ∈ vec, ∃ txs,
      referenced node.txBlockPool orphan.content.proposerContent = some txs ∧
        ∀ tx ∈ txs, tx.transaction.WellShaped) : JustAccepted crypto node block where
  entries := ⟨(published _ known).2, (published _ known).1, (formed.chain.heights _).mpr known⟩
  indexed := formed.indexed
  waiting := formed.waiting
  pooled := pooled

/-- A block on top of `parentBlock` whose reference is badly signed. -/
def badBlock : ProposerBlock :=
  ⟨Header.sample 4 (sampleHash 2), ⟨[sampleHash 0x2001]⟩⟩

/-- A block on top of the bad one, and one on top of `childBlock`. -/
def grandchild (nonce : UInt32) (parent : H256) : ProposerBlock :=
  ⟨Header.sample nonce parent, ⟨[]⟩⟩

/-- Orphans come in, one of them twice, and then the block that they wait for. -/
def orphansRun :
    Run (State.stepAfterIco Crypto.sample) (AfterIco Crypto.sample (icoState [.sample])) :=
  Run.sample
    ([.receive (.transactionBlocks [unsignedBlock]), .work,
      .receive (.proposerBlocks [childBlock, badBlock, childBlock, grandchild 5 (sampleHash 4),
        grandchild 6 (sampleHash 3), parentBlock])] ++ List.replicate 6 .work)
    (by decide +kernel)

theorem releases_orphansRun :
    (orphansRun.states 9).todo = [.newParent parentBlock] ∧
      (newParent Crypto.sample (orphansRun.states 9).node parentBlock).panic = none ∧
      Releases Crypto.sample (orphansRun.states 9).node parentBlock
        (newParent Crypto.sample (orphansRun.states 9).node parentBlock).node ∧
      Released Crypto.sample (orphansRun.states 9).node parentBlock
        (grandchild 6 (sampleHash 3)) := by
  obtain ⟨formed, published⟩ := published_of_run orphansRun 9 (by decide)
  have contents : ∀ entry ∈ (orphansRun.states 9).node.orphanHandler.entries,
      ∀ orphan ∈ entry.2,
        (referenced (orphansRun.states 9).node.txBlockPool orphan.content.proposerContent).any
          (fun txs => decide (∀ tx ∈ txs, tx.transaction.WellShaped)) = true := by
    decide +kernel
  have accepted : JustAccepted Crypto.sample (orphansRun.states 9).node parentBlock := by
    refine justAccepted_of_published formed.node published (by decide +kernel) ?_
    intro parent vec found orphan member
    obtain ⟨txs, collected, shapes⟩ := (Option.any_eq_true _ _).mp
      (contents ⟨parent, vec⟩ ((HashMap.mem_entries_iff _ parent vec).mpr found) orphan member)
    exact ⟨txs, collected, of_decide_eq_true shapes⟩
  have child : Released Crypto.sample (orphansRun.states 9).node parentBlock childBlock := by
    have found : (orphansRun.states 9).node.orphanHandler.lookup (parentBlock.hash Crypto.sample) =
        some [childBlock, badBlock, childBlock] := by decide +kernel
    exact .waiting found (by simp) (by unfold SignedOrphan; decide +kernel)
  have grand : (orphansRun.states 9).node.orphanHandler.lookup (childBlock.hash Crypto.sample) =
      some [grandchild 6 (sampleHash 3)] := by decide +kernel
  obtain ⟨completed, releases⟩ := newParent_releases accepted
  exact ⟨by decide +kernel, completed, releases,
    .further child grand (by simp) (by unfold SignedOrphan; decide +kernel)⟩

end SimplifiedPrism
