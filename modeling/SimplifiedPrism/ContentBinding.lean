import SimplifiedPrism.LedgerAgreement
import SimplifiedPrism.MerkleBinding

/-!
# What a hash says of a block

Blocks are identified by the hash of their header, and the header has the content
only by a Merkle root, which does not tell a list from its padding.  The lists that
miners commit to repeat nothing, so that no two of them have the same padding: as
long as SHA-256 has no collision among what is hashed, the hash of a block that
was made in the network determines the whole block.
-/

namespace SimplifiedPrism

variable {crypto : Crypto}

/-! ## Lists without repetition -/

namespace MerkleTree

variable {α : Type*} {hash : α → H256} {data first second : List α}

theorem getElem?_padded {i : Nat} (inside : i < 2 ^ height data) :
    (padded data)[i]? = data[min i (data.length - 1)]? := by
  by_cases empty : data = []
  · subst empty
    rfl
  have positive := List.length_pos_of_ne_nil empty
  rw [padded_eq empty]
  rcases Nat.lt_or_ge i data.length with within | beyond
  · rw [List.getElem?_append_left within, Nat.min_eq_left (by omega)]
  · rw [List.getElem?_append_right beyond, List.getElem?_replicate, if_pos (by omega),
      List.getLast_eq_getElem, Nat.min_eq_right (by omega), List.getElem?_eq_getElem]

/-- A list without repetition is not the beginning of another with the same padding. -/
theorem length_le_of_padded_eq (nodup : second.Nodup) (same : padded first = padded second)
    (nonempty : first ≠ []) : second.length ≤ first.length := by
  by_contra longer
  have positive := List.length_pos_of_ne_nil nonempty
  have secondNonempty : second ≠ [] := List.ne_nil_of_length_pos (by omega)
  have power : 2 ^ height first = 2 ^ height second := by
    rw [height_eq_of_padded_eq nonempty secondNonempty same]
  have bound := length_le_height second
  -- the copy right after the shorter list stands where the longer one goes on
  have last : (padded first)[first.length - 1]? = (padded first)[first.length]? := by
    rw [getElem?_padded (by omega), getElem?_padded (by omega)]
    congr 1
    omega
  rw [same, getElem?_padded (by omega), getElem?_padded (by omega),
    Nat.min_eq_left (by omega), Nat.min_eq_left (by omega)] at last
  have positions := nodup.getElem_inj_iff.mp (Option.some.inj
    ((List.getElem?_eq_getElem (by omega)).symm.trans
      (last.trans (List.getElem?_eq_getElem (by omega)))))
  omega

theorem eq_of_padded_eq_of_nodup (firstNodup : first.Nodup) (secondNodup : second.Nodup)
    (firstNonempty : first ≠ []) (secondNonempty : second ≠ [])
    (same : padded first = padded second) : first = second :=
  eq_of_padded_eq same (Nat.le_antisymm
    (length_le_of_padded_eq firstNodup same.symm secondNonempty)
    (length_le_of_padded_eq secondNodup same firstNonempty))

theorem padded_map {β : Type*} (f : α → β) (data : List α) :
    padded (data.map f) = (padded data).map f := by
  by_cases empty : data = []
  · subst empty
    rfl
  have mapped : data.map f ≠ [] := by simpa using empty
  rw [padded_eq empty, padded_eq mapped, List.map_append, List.map_replicate, List.getLast_map]
  simp [height]

theorem ofLeaves_map (hash : α → H256) (data : List α) :
    ofLeaves crypto (leafHash id (data.map hash)) (height (data.map hash)) =
      ofLeaves crypto (leafHash hash data) (height data) := by
  have leaves : leafHash id (data.map hash) = leafHash hash data := by
    funext i
    rw [leafHash, padded_map, List.map_id, leafHash]
  rw [leaves, height, List.length_map, height]

theorem dataInputs_map (hash : α → H256) (data : List α) :
    dataInputs crypto id (data.map hash) = dataInputs crypto hash data := by
  rw [dataInputs, ofLeaves_map, dataInputs]

theorem eq_of_map_eq (injective : Set.InjOn hash {datum | datum ∈ first ++ second})
    (same : first.map hash = second.map hash) : first = second := by
  have length : first.length = second.length := by simpa using congrArg List.length same
  apply List.ext_getElem length
  intro i inFirst inSecond
  apply injective
  · exact List.mem_append_left _ (List.getElem_mem inFirst)
  · exact List.mem_append_right _ (List.getElem_mem inSecond)
  · have hashes := congrArg (fun hashes => hashes[i]?) same
    simpa [inFirst, inSecond] using hashes

/-- A Merkle root determines a list that has no repetition, if SHA-256 has no
collision among what is hashed for the trees, hashes no inner node to a leaf, and
nothing to zero. -/
theorem eq_of_root_eq {firstTree secondTree : MerkleTree}
    (builtFirst : new crypto hash first = some firstTree)
    (builtSecond : new crypto hash second = some secondTree)
    (firstNodup : first.Nodup) (secondNodup : second.Nodup)
    (injective : Set.InjOn hash {datum | datum ∈ first ++ second})
    (separates : Separates crypto ((first ++ second).map hash)
      (dataInputs crypto hash first ++ dataInputs crypto hash second))
    (leaves : ∀ datum ∈ first ++ second, hash datum ≠ H256.zero)
    (inputs : ∀ hashed ∈ dataInputs crypto hash first ++ dataInputs crypto hash second,
      crypto.sha256 hashed ≠ H256.zero)
    (same : firstTree.root = secondTree.root) : first = second := by
  have leavesOf {data : List α} (among : ∀ datum ∈ data, datum ∈ first ++ second) :
      ∀ leaf ∈ data.map hash, leaf ≠ H256.zero := by
    intro leaf member
    obtain ⟨datum, inside, rfl⟩ := List.mem_map.mp member
    exact leaves datum (among datum inside)
  by_cases firstEmpty : first = []
  · subst firstEmpty
    cases builtFirst
    by_contra different
    have secondNonempty : second ≠ [] := fun empty => different empty.symm
    rw [new_eq secondNonempty (height_of_new builtSecond), Option.some.injEq] at builtSecond
    subst builtSecond
    exact root_ne_zero secondNonempty (leavesOf fun datum => List.mem_append_right _)
      (fun hashed member => inputs hashed (List.mem_append_right _ member)) same.symm
  rw [new_eq firstEmpty (height_of_new builtFirst), Option.some.injEq] at builtFirst
  subst builtFirst
  by_cases secondEmpty : second = []
  · subst secondEmpty
    cases builtSecond
    exact absurd same (root_ne_zero firstEmpty (leavesOf fun datum => List.mem_append_left _)
      fun hashed member => inputs hashed (List.mem_append_left _ member))
  rw [new_eq secondEmpty (height_of_new builtSecond), Option.some.injEq] at builtSecond
  subst builtSecond
  have sub {data : List α} (among : ∀ datum ∈ data, datum ∈ first ++ second) :
      Set.InjOn hash {datum | datum ∈ data} := injective.mono among
  have hashes : first.map hash = second.map hash := by
    rw [← ofLeaves_map hash first, ← ofLeaves_map hash second] at same
    rw [List.map_append, ← dataInputs_map hash first, ← dataInputs_map hash second] at separates
    apply eq_of_padded_eq_of_nodup
    · exact (List.nodup_map_iff_inj_on firstNodup).mpr fun datum member other memberToo =>
        sub (fun datum => List.mem_append_left _) member memberToo
    · exact (List.nodup_map_iff_inj_on secondNodup).mpr fun datum member other memberToo =>
        sub (fun datum => List.mem_append_right _) member memberToo
    · simpa using firstEmpty
    · simpa using secondEmpty
    · apply padded_eq_of_root_eq Function.injective_id _ _ (by simpa using separates) same
      · simpa using firstEmpty
      · simpa using secondEmpty
  exact eq_of_map_eq injective hashes

end MerkleTree

/-! ## What is hashed in a network -/

/-- The headers of the blocks of both kinds. -/
def Origin.headers (crypto : Crypto) (origin : Origin) : Set Header :=
  {header | (∃ block, origin.Known crypto block ∧ block.header = header) ∨
    ∃ txBlock, origin.txBlock txBlock ∧ txBlock.header = header}

/-- The transactions in transaction blocks. -/
def Origin.packed (origin : Origin) : Set SignedTransaction :=
  {tx | ∃ txBlock, origin.txBlock txBlock ∧ tx ∈ txBlock.content.transactionContent}

/-- What SHA-256 is run on for the hashes and the Merkle roots of the blocks. -/
inductive Origin.Hashed (crypto : Crypto) (origin : Origin) : List UInt8 → Prop
  | header {header : Header} (member : header ∈ origin.headers crypto) :
      Hashed crypto origin (crypto.headerJson header)
  | transaction {tx : SignedTransaction} (member : tx ∈ origin.packed) :
      Hashed crypto origin (crypto.signedTransactionJson tx)
  | reference {block : ProposerBlock} {ref : H256} (known : origin.Known crypto block)
      (member : ref ∈ block.content.proposerContent) : Hashed crypto origin ref.toBytes
  | references {block : ProposerBlock} {hashed : List UInt8} (known : origin.Known crypto block)
      (member : hashed ∈ MerkleTree.dataInputs crypto (H256.hash crypto)
        block.content.proposerContent) : Hashed crypto origin hashed
  | transactions {txBlock : TXBlock} {hashed : List UInt8} (chosen : origin.txBlock txBlock)
      (member : hashed ∈ MerkleTree.dataInputs crypto (SignedTransaction.hash crypto)
        txBlock.content.transactionContent) : Hashed crypto origin hashed

/-- SHA-256 has no collision among what is hashed, and nothing of it has the hash
zero.  The renderings tell headers and transactions apart, and are longer than the
two hashes that make up an inner node of a Merkle tree. -/
structure CollisionFree (crypto : Crypto) (origin : Origin) : Prop where
  injective : Set.InjOn crypto.sha256 {bytes | origin.Hashed crypto bytes}
  nonzero : ∀ bytes, origin.Hashed crypto bytes → crypto.sha256 bytes ≠ H256.zero
  header : Set.InjOn crypto.headerJson (origin.headers crypto)
  transaction : Set.InjOn crypto.signedTransactionJson origin.packed
  headerLength : ∀ header ∈ origin.headers crypto, 64 < (crypto.headerJson header).length
  transactionLength : ∀ tx ∈ origin.packed, 64 < (crypto.signedTransactionJson tx).length

theorem MerkleTree.length_of_hashedInputs {nodes : List H256} {hashed : List UInt8}
    (member : hashed ∈ hashedInputs nodes) : hashed.length = 64 := by
  fun_induction hashedInputs nodes with
  | case1 left right nodes ih =>
      rcases List.mem_cons.mp member with rfl | later
      · simp [input]
      · exact ih later
  | case2 nodes short => cases member

theorem H256.toBytes_injective : Function.Injective H256.toBytes := by
  rintro ⟨first⟩ ⟨second⟩ same
  rw [H256.toBytes, H256.toBytes, Vector.toList_inj] at same
  exact congrArg H256.mk same

section CollisionFree

variable {origin : Origin}

theorem CollisionFree.header_eq (free : CollisionFree crypto origin) {first second : Header}
    (member : first ∈ origin.headers crypto) (memberToo : second ∈ origin.headers crypto)
    (same : first.hash crypto = second.hash crypto) : first = second :=
  free.header member memberToo (free.injective (.header member) (.header memberToo) same)

/-- Lists of data that are hashed by their renderings are the same if their trees
have the same root. -/
theorem CollisionFree.contents_eq (free : CollisionFree crypto origin) {α : Type*}
    {bytes : α → List UInt8} {first second : List α} {firstTree secondTree : MerkleTree}
    (builtFirst : MerkleTree.new crypto (fun datum => crypto.sha256 (bytes datum)) first =
      some firstTree)
    (builtSecond : MerkleTree.new crypto (fun datum => crypto.sha256 (bytes datum)) second =
      some secondTree)
    (firstNodup : first.Nodup) (secondNodup : second.Nodup)
    (injective : Set.InjOn bytes {datum | datum ∈ first ++ second})
    (data : ∀ datum ∈ first ++ second,
      origin.Hashed crypto (bytes datum) ∧ (bytes datum).length ≠ 64)
    (inputs : ∀ hashed ∈
      MerkleTree.dataInputs crypto (fun datum => crypto.sha256 (bytes datum)) first ++
        MerkleTree.dataInputs crypto (fun datum => crypto.sha256 (bytes datum)) second,
      origin.Hashed crypto hashed)
    (same : firstTree.root = secondTree.root) : first = second := by
  apply MerkleTree.eq_of_root_eq builtFirst builtSecond firstNodup secondNodup
  · exact fun datum member other memberToo hashes => injective member memberToo
      (free.injective (data datum member).1 (data other memberToo).1 hashes)
  · refine ⟨fun each member other memberToo hashes =>
      free.injective (inputs each member) (inputs other memberToo) hashes, ?_⟩
    intro leaf member hashed combined collides
    obtain ⟨datum, inside, rfl⟩ := List.mem_map.mp member
    obtain ⟨isHashed, length⟩ := data datum inside
    have sameBytes := free.injective isHashed (inputs hashed combined) collides
    -- an inner node is the hash of 64 bytes, a leaf is not
    apply length
    rw [sameBytes]
    rcases List.mem_append.mp combined with inFirst | inSecond
    · exact MerkleTree.length_of_hashedInputs inFirst
    · exact MerkleTree.length_of_hashedInputs inSecond
  · exact fun datum member => free.nonzero _ (data datum member).1
  · exact fun hashed member => free.nonzero _ (inputs hashed member)
  · exact same

theorem CollisionFree.block_eq (free : CollisionFree crypto origin) {first second : ProposerBlock}
    (known : origin.Known crypto first) (knownToo : origin.Known crypto second)
    (commits : first.Commits crypto) (commitsToo : second.Commits crypto)
    (nodup : first.content.proposerContent.Nodup) (nodupToo : second.content.proposerContent.Nodup)
    (same : first.header = second.header) : first = second := by
  obtain ⟨tree, built, root⟩ := commits
  obtain ⟨otherTree, builtToo, rootToo⟩ := commitsToo
  have contents : first.content.proposerContent = second.content.proposerContent := by
    apply free.contents_eq built builtToo nodup nodupToo H256.toBytes_injective.injOn
    · intro ref member
      refine ⟨?_, by simp⟩
      rcases List.mem_append.mp member with inFirst | inSecond
      · exact .reference known inFirst
      · exact .reference knownToo inSecond
    · intro hashed member
      rcases List.mem_append.mp member with inFirst | inSecond
      · exact .references known inFirst
      · exact .references knownToo inSecond
    · rw [root, rootToo, same]
  rw [ProposerBlock.mk.injEq, ProposerContent.mk.injEq]
  exact ⟨same, contents⟩

theorem CollisionFree.txBlock_eq (free : CollisionFree crypto origin) {first second : TXBlock}
    (chosen : origin.txBlock first) (chosenToo : origin.txBlock second)
    (commits : first.Commits crypto) (commitsToo : second.Commits crypto)
    (nodup : first.content.transactionContent.Nodup)
    (nodupToo : second.content.transactionContent.Nodup)
    (same : first.header = second.header) : first = second := by
  obtain ⟨tree, built, root⟩ := commits
  obtain ⟨otherTree, builtToo, rootToo⟩ := commitsToo
  have packed : ∀ tx ∈ first.content.transactionContent ++ second.content.transactionContent,
      tx ∈ origin.packed := by
    intro tx member
    rcases List.mem_append.mp member with inFirst | inSecond
    · exact ⟨first, chosen, inFirst⟩
    · exact ⟨second, chosenToo, inSecond⟩
  have contents : first.content.transactionContent = second.content.transactionContent := by
    apply free.contents_eq built builtToo nodup nodupToo (free.transaction.mono packed)
    · intro tx member
      have long := free.transactionLength tx (packed tx member)
      exact ⟨.transaction (packed tx member), by omega⟩
    · intro hashed member
      rcases List.mem_append.mp member with inFirst | inSecond
      · exact .transactions chosen inFirst
      · exact .transactions chosenToo inSecond
    · rw [root, rootToo, same]
  rw [TXBlock.mk.injEq, TXContent.mk.injEq]
  exact ⟨same, contents⟩

/-- No header has the hash that genesis names as its parent, which is that of zero. -/
theorem CollisionFree.ne_fakeRoot (free : CollisionFree crypto origin) {header : Header}
    (member : header ∈ origin.headers crypto) : header.hash crypto ≠ fakeRoot crypto := by
  intro same
  have fake : fakeRoot crypto = crypto.sha256 H256.zero.toBytes := by
    simp [fakeRoot, MerkleTree.root, H256.hash]
  have zero : origin.Hashed crypto H256.zero.toBytes :=
    .reference (.inl rfl) (List.mem_singleton.mpr rfl)
  have bytes := free.injective (.header member) zero (same.trans fake)
  have long := free.headerLength header member
  rw [bytes, H256.toBytes_length] at long
  omega

end CollisionFree

/-! ## Runs -/

section Runs

variable {Peer : Type*} [DecidableEq Peer] {graph : Graph Peer}
variable {run : Run (Network.step crypto graph) (Network.Initial crypto)}

/-- Among blocks that miners have made, hashes that do not collide determine the blocks. -/
theorem noCollision_of_collisionFree (free : CollisionFree crypto (madeBefore run run.length)) :
    NoCollision crypto (madeBefore run run.length) := by
  have header {block : ProposerBlock} (known : (madeBefore run run.length).Known crypto block) :
      block.header ∈ (madeBefore run run.length).headers crypto := .inl ⟨block, known, rfl⟩
  have headerToo {txBlock : TXBlock} (chosen : (madeBefore run run.length).txBlock txBlock) :
      txBlock.header ∈ (madeBefore run run.length).headers crypto := .inr ⟨txBlock, chosen, rfl⟩
  constructor
  · intro first second chosen chosenToo same
    obtain ⟨index, bound, made⟩ := chosen
    obtain ⟨later, laterBound, madeToo⟩ := chosenToo
    have makes := (makes_of_run run index bound).block first made
    have makesToo := (makes_of_run run later laterBound).block second madeToo
    exact free.block_eq (.inr ⟨index, bound, made⟩) (.inr ⟨later, laterBound, madeToo⟩)
      makes.commits makesToo.commits makes.selected.nodup makesToo.selected.nodup
      (free.header_eq (header (.inr ⟨index, bound, made⟩))
        (header (.inr ⟨later, laterBound, madeToo⟩)) same)
  · intro first second chosen chosenToo same
    obtain ⟨index, bound, made⟩ := chosen
    obtain ⟨later, laterBound, madeToo⟩ := chosenToo
    have makes := (makes_of_run run index bound).txBlock first made
    have makesToo := (makes_of_run run later laterBound).txBlock second madeToo
    exact free.txBlock_eq ⟨index, bound, made⟩ ⟨later, laterBound, madeToo⟩
      makes.commits makesToo.commits makes.selected.nodup makesToo.selected.nodup
      (free.header_eq (headerToo ⟨index, bound, made⟩)
        (headerToo ⟨later, laterBound, madeToo⟩) same)
  · rintro block chosen same
    -- genesis does not have a parent, a block that was made does
    have sameHeader := free.header_eq (header (.inr chosen)) (header (.inl rfl)) same
    obtain ⟨index, bound, made⟩ := chosen
    have parent : block.header.proposerParent = fakeRoot crypto := by rw [sameHeader]; rfl
    rcases parent_of_made bound made with genesis | ⟨earlier, earlierMade, same⟩
    · exact free.ne_fakeRoot (header (.inl rfl)) (genesis.symm.trans parent)
    · exact free.ne_fakeRoot
        (header (.inr ((madeBefore_le run (Nat.le_of_lt bound)).block earlier earlierMade)))
        (same.trans parent)
  · exact fun block known => free.ne_fakeRoot (header known)

end Runs

/-- The proposer blocks in a network: in trees, waiting for their parents, and under way. -/
def Network.HasBlock {Peer : Type*} (network : Network Peer) (block : ProposerBlock) : Prop :=
  (∃ peer hash, (network.nodes peer).blockchain.blocks.lookup hash = some block) ∨
    (∃ peer parent, ∃ bucket ∈ (network.nodes peer).orphanHandler.lookup parent, block ∈ bucket) ∨
    ∃ packet ∈ network.packets, ∃ blocks, packet.message = .proposerBlocks blocks ∧ block ∈ blocks

/-- The transaction blocks in a network: in pools and under way. -/
def Network.HasTXBlock {Peer : Type*} (network : Network Peer) (txBlock : TXBlock) : Prop :=
  (∃ peer hash, (network.nodes peer).txBlockPool.lookup hash = some txBlock) ∨
    ∃ packet ∈ network.packets, ∃ txBlocks, packet.message = .transactionBlocks txBlocks ∧
      txBlock ∈ txBlocks

section Determined

variable {Peer : Type*} {origin : Origin} {network : Network Peer}

theorem Network.Within.known (within : network.Within crypto origin) {block : ProposerBlock}
    (has : network.HasBlock block) : origin.Known crypto block := by
  rcases has with ⟨peer, hash, found⟩ | ⟨peer, parent, bucket, found, member⟩ |
    ⟨packet, underWay, blocks, message, member⟩
  · exact (within.nodes peer).blocks hash block found
  · exact .inr ((within.nodes peer).waiting parent bucket found block member)
  · have inside := within.packets packet underWay
    rw [message] at inside
    exact inside block member

theorem Network.Within.txBlock (within : network.Within crypto origin) {txBlock : TXBlock}
    (has : network.HasTXBlock txBlock) : origin.txBlock txBlock := by
  rcases has with ⟨peer, hash, found⟩ | ⟨packet, underWay, txBlocks, message, member⟩
  · exact (within.nodes peer).txBlockPool hash txBlock found
  · have inside := within.packets packet underWay
    rw [message] at inside
    exact inside txBlock member

end Determined

/-- Wherever and whenever two blocks are in the network, kept or under way, they are
the same, content and all, if they have the same hash. -/
theorem blocks_determined_of_run {Peer : Type*} [DecidableEq Peer] {graph : Graph Peer}
    (run : Run (Network.step crypto graph) (Network.Initial crypto))
    (free : CollisionFree crypto (madeBefore run run.length)) :
    ∀ index ≤ run.length, ∀ later ≤ run.length,
      (∀ first second, (run.states index).HasBlock first → (run.states later).HasBlock second →
        first.hash crypto = second.hash crypto → first = second) ∧
      ∀ first second, (run.states index).HasTXBlock first →
        (run.states later).HasTXBlock second →
        first.hash crypto = second.hash crypto → first = second := by
  intro index bound later laterBound
  have noCollision := noCollision_of_collisionFree free
  have within := (within_of_run run index bound).mono (madeBefore_le run bound)
  have withinToo := (within_of_run run later laterBound).mono (madeBefore_le run laterBound)
  constructor
  · exact fun first second has hasToo =>
      noCollision.known (within.known has) (withinToo.known hasToo)
  · exact fun first second has hasToo =>
      noCollision.txBlock first second (within.txBlock has) (withinToo.txBlock hasToo)

/-! ## A short run -/

/-- Everything that is hashed for the blocks in two lists. -/
def hashedFor (crypto : Crypto) (blocks : List ProposerBlock) (txBlocks : List TXBlock) :
    List (List UInt8) :=
  (blocks.map fun block => crypto.headerJson block.header) ++
    (txBlocks.map fun txBlock => crypto.headerJson txBlock.header) ++
    (txBlocks.flatMap fun txBlock =>
      txBlock.content.transactionContent.map crypto.signedTransactionJson) ++
    (blocks.flatMap fun block => block.content.proposerContent.map H256.toBytes) ++
    (blocks.flatMap fun block =>
      MerkleTree.dataInputs crypto (H256.hash crypto) block.content.proposerContent) ++
    txBlocks.flatMap fun txBlock =>
      MerkleTree.dataInputs crypto (SignedTransaction.hash crypto)
        txBlock.content.transactionContent

theorem hashedFor_of_hashed {origin : Origin} {blocks : List ProposerBlock}
    {txBlocks : List TXBlock} (onlyBlocks : ∀ block, origin.block block → block ∈ blocks)
    (onlyTxBlocks : ∀ txBlock, origin.txBlock txBlock → txBlock ∈ txBlocks) {bytes : List UInt8}
    (hashed : origin.Hashed crypto bytes) :
    bytes ∈ hashedFor crypto (genesisBlock crypto :: blocks) txBlocks := by
  have listed {block : ProposerBlock} (known : origin.Known crypto block) :
      block ∈ genesisBlock crypto :: blocks :=
    List.mem_cons.mpr (known.imp_right (onlyBlocks block))
  simp only [hashedFor, List.mem_append, List.mem_map, List.mem_flatMap]
  cases hashed with
  | header member =>
      rcases member with ⟨block, known, rfl⟩ | ⟨txBlock, chosen, rfl⟩
      · exact .inl (.inl (.inl (.inl (.inl ⟨block, listed known, rfl⟩))))
      · exact .inl (.inl (.inl (.inl (.inr ⟨txBlock, onlyTxBlocks txBlock chosen, rfl⟩))))
  | transaction member =>
      obtain ⟨txBlock, chosen, inside⟩ := member
      exact .inl (.inl (.inl (.inr ⟨txBlock, onlyTxBlocks txBlock chosen, _, inside, rfl⟩)))
  | reference known member => exact .inl (.inl (.inr ⟨_, listed known, _, member, rfl⟩))
  | references known member => exact .inl (.inr ⟨_, listed known, member⟩)
  | transactions chosen member => exact .inr ⟨_, onlyTxBlocks _ chosen, member⟩

/-- A stand-in whose hashes end with the length of what is hashed, and whose
renderings are long. -/
def longCrypto : Crypto :=
  { Crypto.sample with
    sha256 := fun bytes =>
      .fill (UInt8.ofNat bytes.length) ((bytes ++ List.replicate 31 0).take 31)
    headerJson := fun header => Crypto.sample.headerJson header ++ List.replicate 64 0
    signedTransactionJson := fun tx =>
      Crypto.sample.signedTransactionJson tx ++ List.replicate 64 0 }

def longPayment : SignedTransaction :=
  let address := addressOf longCrypto [65]
  let transaction : Transaction :=
    { inputPrevious := [H256.zero, H256.zero]
      inputIndex := [0, 0]
      outputValue := [300, 700]
      outputAddress := [address, address] }
  ⟨transaction, ⟨sign longCrypto transaction ⟨[65]⟩, [65]⟩⟩

def longTXBlock : TXBlock where
  header :=
    { Header.sample 0x2001 (genesisHash longCrypto) with
      merkleTransaction := longPayment.hash longCrypto }
  content := ⟨[longPayment]⟩

def longBlock : ProposerBlock where
  header :=
    { Header.sample 2 (genesisHash longCrypto) with
      merkleProposer := (longTXBlock.hash longCrypto).hash longCrypto }
  content := ⟨[longTXBlock.hash longCrypto]⟩

/-- A node mines a payment and a reference to it, and is asked for the transaction block. -/
def longRun : Run (Network.step longCrypto Graph.pair) (Network.Initial longCrypto) :=
  let hash := longTXBlock.hash longCrypto
  Run.ofActions ⟨fun _ => Node.initial longCrypto [] ∅, []⟩ ⟨fun _ => rfl, rfl⟩
    [.generateAddress false ⟨[65]⟩, .ico false, .generate false [⟨(H256.zero, 0), 0, 299⟩],
      .mine false ⟨[longPayment.hash longCrypto], [], 0x2001, 0⟩, .mine false ⟨[], [hash], 2, 0⟩,
      .deliver ⟨false, true, .newTransactionBlockHashes [hash]⟩,
      .deliver ⟨true, false, .getTransactionBlocks [hash]⟩]
    (by decide +kernel)

theorem collisionFree_longRun : CollisionFree longCrypto (madeBefore longRun longRun.length) := by
  obtain ⟨onlyBlocks, onlyTxBlocks⟩ :
      (∀ block, (madeBefore longRun longRun.length).block block → block ∈ [longBlock]) ∧
      ∀ txBlock, (madeBefore longRun longRun.length).txBlock txBlock →
        txBlock ∈ [longTXBlock] := by
    apply madeBefore_of_entries longRun
    · change ∀ index < 7, _
      decide +kernel
    · change ∀ index < 7, _
      decide +kernel
  have listed {bytes : List UInt8}
      (hashed : (madeBefore longRun longRun.length).Hashed longCrypto bytes) :=
    hashedFor_of_hashed onlyBlocks onlyTxBlocks hashed
  have headers {header : Header}
      (member : header ∈ (madeBefore longRun longRun.length).headers longCrypto) :
      header ∈ [(genesisBlock longCrypto).header, longBlock.header, longTXBlock.header] := by
    rcases member with ⟨block, rfl | chosen, rfl⟩ | ⟨txBlock, chosen, rfl⟩
    · simp
    · simp [List.mem_singleton.mp (onlyBlocks block chosen)]
    · simp [List.mem_singleton.mp (onlyTxBlocks txBlock chosen)]
  have packed {tx : SignedTransaction} (member : tx ∈ (madeBefore longRun longRun.length).packed) :
      tx = longPayment := by
    obtain ⟨txBlock, chosen, inside⟩ := member
    rw [List.mem_singleton.mp (onlyTxBlocks txBlock chosen)] at inside
    exact List.mem_singleton.mp inside
  have distinct : ∀ first ∈ hashedFor longCrypto [genesisBlock longCrypto, longBlock] [longTXBlock],
      ∀ second ∈ hashedFor longCrypto [genesisBlock longCrypto, longBlock] [longTXBlock],
        longCrypto.sha256 first = longCrypto.sha256 second → first = second := by
    decide +kernel
  have nonzero : ∀ bytes ∈ hashedFor longCrypto [genesisBlock longCrypto, longBlock] [longTXBlock],
      longCrypto.sha256 bytes ≠ H256.zero := by
    decide +kernel
  have rendered : ∀ first ∈
      [(genesisBlock longCrypto).header, longBlock.header, longTXBlock.header], ∀ second ∈
      [(genesisBlock longCrypto).header, longBlock.header, longTXBlock.header],
        longCrypto.headerJson first = longCrypto.headerJson second → first = second := by
    decide +kernel
  constructor
  · exact fun first hashed second hashedToo =>
      distinct first (listed hashed) second (listed hashedToo)
  · exact fun bytes hashed => nonzero bytes (listed hashed)
  · exact fun first member second memberToo =>
      rendered first (headers member) second (headers memberToo)
  · exact fun first member second memberToo _ => (packed member).trans (packed memberToo).symm
  · intro header _
    simp [longCrypto, Crypto.sample]
  · intro tx _
    simp [longCrypto, Crypto.sample]

/-- The transaction block that is under way is the one that its maker keeps. -/
theorem blocks_determined_longRun :
    (∃ txBlock, (longRun.states 7).HasTXBlock txBlock ∧
      txBlock.hash longCrypto = longTXBlock.hash longCrypto) ∧
    ∀ txBlock, (longRun.states 7).HasTXBlock txBlock →
      longTXBlock.hash longCrypto = txBlock.hash longCrypto → longTXBlock = txBlock := by
  have kept (index : Nat) (found : ((longRun.states index).nodes false).txBlockPool.lookup
      (longTXBlock.hash longCrypto) = some longTXBlock) :
      (longRun.states index).HasTXBlock longTXBlock := .inl ⟨false, _, found⟩
  have determined := (blocks_determined_of_run longRun collisionFree_longRun 4 (by decide) 7
    (by decide)).2
  exact ⟨⟨longTXBlock, kept 7 (by decide +kernel), rfl⟩, fun txBlock has same =>
    determined longTXBlock txBlock (kept 4 (by decide +kernel)) has same⟩

end SimplifiedPrism
