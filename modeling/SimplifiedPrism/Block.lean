import SimplifiedPrism.Hash

/-!
# Transactions, headers and blocks

The data that nodes exchange.  What the program takes from other packages,
SHA-256, Ed25519 and the `serde_json` rendering that is hashed and signed, is
gathered in `Crypto` and stays a parameter of everything that follows.
-/

namespace SimplifiedPrism

/-- A transaction names the outputs it spends by two parallel vectors and
describes what it creates by two more. -/
structure Transaction where
  inputPrevious : List H256
  inputIndex : List UInt32
  outputValue : List UInt32
  outputAddress : List H160
deriving DecidableEq

structure Sign where
  signature : List UInt8
  key : List UInt8
deriving DecidableEq

structure SignedTransaction where
  transaction : Transaction
  sig : Sign
deriving DecidableEq

/-- The header shared by proposer blocks and transaction blocks. -/
structure Header where
  proposerParent : H256
  nonce : UInt32
  timestamp : BitVec 128
  transactionDifficulty : H256
  proposerDifficulty : H256
  merkleTransaction : H256
  merkleProposer : H256
deriving DecidableEq

structure ProposerContent where
  proposerContent : List H256
deriving DecidableEq

structure ProposerBlock where
  header : Header
  content : ProposerContent
deriving DecidableEq

structure TXContent where
  transactionContent : List SignedTransaction
deriving DecidableEq

structure TXBlock where
  header : Header
  content : TXContent
deriving DecidableEq

/-- An Ed25519 key pair, kept as the PKCS#8 document it is read from. -/
structure KeyPair where
  pkcs8 : List UInt8
deriving DecidableEq

/-- The functions the program takes from other packages. -/
structure Crypto where
  sha256 : List UInt8 → H256
  headerJson : Header → List UInt8
  transactionJson : Transaction → List UInt8
  signedTransactionJson : SignedTransaction → List UInt8
  publicKey : KeyPair → List UInt8
  ed25519Sign : KeyPair → List UInt8 → List UInt8
  ed25519Verify : List UInt8 → List UInt8 → List UInt8 → Bool

/-- An executable stand-in, to evaluate the model on concrete inputs: a hash
keeps the first 32 bytes, and a signature spells out the key and the message. -/
def Crypto.sample : Crypto where
  sha256 := .fill 0
  headerJson header := [(header.nonce >>> 8).toUInt8, header.nonce.toUInt8]
  transactionJson transaction :=
    transaction.inputPrevious.flatMap (fun hash => hash.toBytes.take 2) ++
      transaction.inputIndex.map UInt32.toUInt8 ++
      transaction.outputValue.map UInt32.toUInt8 ++
      transaction.outputAddress.flatMap fun address => address.bytes.toList.take 1
  signedTransactionJson tx := 1 :: tx.sig.signature
  publicKey key := key.pkcs8
  ed25519Sign key message := 7 :: key.pkcs8 ++ message
  ed25519Verify publicKey message signature := decide (signature = 7 :: publicKey ++ message)

variable (crypto : Crypto)

def H256.hash (data : H256) : H256 :=
  crypto.sha256 data.toBytes

def Header.hash (header : Header) : H256 :=
  crypto.sha256 (crypto.headerJson header)

/-- A proposer block is identified by its header alone. -/
def ProposerBlock.hash (block : ProposerBlock) : H256 :=
  block.header.hash crypto

/-- A transaction block is identified by its header alone. -/
def TXBlock.hash (block : TXBlock) : H256 :=
  block.header.hash crypto

def SignedTransaction.hash (tx : SignedTransaction) : H256 :=
  crypto.sha256 (crypto.signedTransactionJson tx)

/-- Create the digital signature of a transaction. -/
def sign (transaction : Transaction) (key : KeyPair) : List UInt8 :=
  crypto.ed25519Sign key (crypto.transactionJson transaction)

/-- Verify the digital signature of a transaction with the public key. -/
def verify (transaction : Transaction) (publicKey signature : List UInt8) : Bool :=
  crypto.ed25519Verify publicKey (crypto.transactionJson transaction) signature

/-- The check `verify(&each_tx.transaction, &each_tx.sig.key, &each_tx.sig.signature)`. -/
def SignedTransaction.verified (tx : SignedTransaction) : Bool :=
  verify crypto tx.transaction tx.sig.key tx.sig.signature

/-- The address a public key controls. -/
def addressOf (publicKey : List UInt8) : H160 :=
  H160.ofH256 (crypto.sha256 publicKey)

namespace Transaction

/-- The outpoint named by the `i`-th input; `none` where the code would index
out of range. -/
def lookupKey (transaction : Transaction) (i : Nat) : Option (H256 × UInt32) := do
  let previous ← transaction.inputPrevious[i]?
  let index ← transaction.inputIndex[i]?
  return (previous, index)

/-- The `i`-th output; `none` where the code would index out of range. -/
def output (transaction : Transaction) (i : Nat) : Option (UInt32 × H160) := do
  let value ← transaction.outputValue[i]?
  let address ← transaction.outputAddress[i]?
  return (value, address)

/-- Every input has an index, so that all lookup keys are in range. -/
def Indexed (transaction : Transaction) : Prop :=
  transaction.inputPrevious.length ≤ transaction.inputIndex.length

instance (transaction : Transaction) : Decidable transaction.Indexed :=
  inferInstanceAs (Decidable (_ ≤ _))

/-- Every input has an index and there are at least as many outputs as inputs. -/
structure WellShaped (transaction : Transaction) : Prop where
  indexed : transaction.Indexed
  values : transaction.inputPrevious.length ≤ transaction.outputValue.length
  addresses : transaction.inputPrevious.length ≤ transaction.outputAddress.length

instance (transaction : Transaction) : Decidable transaction.WellShaped :=
  decidable_of_iff
    (transaction.Indexed ∧
      transaction.inputPrevious.length ≤ transaction.outputValue.length ∧
      transaction.inputPrevious.length ≤ transaction.outputAddress.length)
    ⟨fun shape => ⟨shape.1, shape.2.1, shape.2.2⟩,
      fun shape => ⟨shape.indexed, shape.values, shape.addresses⟩⟩

theorem Indexed.lookupKey_isSome {transaction : Transaction}
    (indexed : transaction.Indexed) {i : Nat}
    (bound : i < transaction.inputPrevious.length) :
    ∃ key, transaction.lookupKey i = some key := by
  have indexBound : i < transaction.inputIndex.length := Nat.lt_of_lt_of_le bound indexed
  exact ⟨(transaction.inputPrevious[i], transaction.inputIndex[i]), by
    simp [lookupKey, bound, indexBound]⟩

theorem WellShaped.output_isSome {transaction : Transaction}
    (shape : transaction.WellShaped) {i : Nat}
    (bound : i < transaction.inputPrevious.length) :
    ∃ coin, transaction.output i = some coin := by
  have valueBound : i < transaction.outputValue.length :=
    Nat.lt_of_lt_of_le bound shape.values
  have addressBound : i < transaction.outputAddress.length :=
    Nat.lt_of_lt_of_le bound shape.addresses
  exact ⟨(transaction.outputValue[i], transaction.outputAddress[i]), by
    simp [output, valueBound, addressBound]⟩

end Transaction

/-- A transaction that is signed correctly and that a ledger update can read. -/
def SignedTransaction.Sound (crypto : Crypto) (tx : SignedTransaction) : Prop :=
  tx.verified crypto = true ∧ tx.transaction.WellShaped

instance (crypto : Crypto) : DecidablePred (SignedTransaction.Sound crypto) :=
  fun _ => inferInstanceAs (Decidable (_ ∧ _))

end SimplifiedPrism
