import Leaderboard.Rank
import Leaderboard.Text.Escaped
import Leaderboard.Text.Quoted

/-!
# Failures

Everything that can go wrong is a value of `Failure`, which names the cause and
carries what is needed to report it.  `Failure.message` is the one place where a
failure is put into words, and `Failure.isFatal` tells the failures after which
the stored data can no longer be trusted.

Several causes have a case `other` for a failure that some other component
reports in words of its own.
-/

namespace Leaderboard

/-! ## Files -/

/-- A failed operation on a file or a byte stream. -/
inductive IoFault where
  /-- The bytes end before a read is complete. -/
  | shortRead
  /-- There is no room for all the bytes of a write. -/
  | shortWrite
  /-- A field has more bytes than its length field can tell. -/
  | fieldTooLong
  /-- The file may not grow that far. -/
  | fileTooLarge
  /-- A file is wanted and a directory is found. -/
  | isDirectory
  /-- A directory is wanted and a file is found on the way. -/
  | notDirectory
  /-- A directory is to be made and a file is found. -/
  | alreadyExists
  /-- The file or its directory is missing. -/
  | notFound
  /-- Another holder has the lock. -/
  | unavailable
  /-- A name or a path has too many bytes. -/
  | nameTooLong
  /-- A path holds a NUL. -/
  | nulInPath
  /-- A fault reported in words. -/
  | other (text : String)
deriving DecidableEq, Repr

/-- The wording of a file fault. -/
def IoFault.message : IoFault → String
  | .shortRead => "failed to fill whole buffer"
  | .shortWrite => "failed to write whole buffer"
  | .fieldTooLong => "longer than u32::MAX bytes"
  | .fileTooLarge => "File too large (os error 27)"
  | .isDirectory => "Is a directory (os error 21)"
  | .notDirectory => "Not a directory (os error 20)"
  | .alreadyExists => "File exists (os error 17)"
  | .notFound => "No such file or directory (os error 2)"
  | .unavailable => "Resource temporarily unavailable (os error 11)"
  | .nameTooLong => "File name too long (os error 36)"
  | .nulInPath => "file name contained an unexpected NUL byte"
  | .other text => text

/-! ## The log -/

/-- The two fields of a log entry. -/
inductive LogField where
  /-- The key. -/
  | key
  /-- The value. -/
  | value
deriving DecidableEq, Repr

/-- The name of a field. -/
def LogField.name : LogField → String
  | .key => "key"
  | .value => "value"

/-- How a log file differs from one that was written and synced. -/
inductive LogDamage where
  /-- The synced entries do not have the checksum that was synced. -/
  | mismatch (entries : Nat) (computed stored : UInt64)
  /-- The log holds fewer entries than were synced. -/
  | entriesMissing (found synced : Nat)
  /-- A field is longer than what is left of the log. -/
  | overrun (field : LogField) (length position : Nat)
  /-- The log ends inside the length of a field. -/
  | cutShort (field : LogField)
  /-- Damage reported in words. -/
  | other (text : String)
deriving DecidableEq, Repr

/-- The wording of a log damage. -/
def LogDamage.message : LogDamage → String
  | .mismatch entries computed stored =>
      "checksum mismatch after " ++ toString entries ++ " entries: computed "
        ++ Hex.word computed ++ ", stored " ++ Hex.word stored
  | .entriesMissing found synced =>
      "log holds " ++ toString found ++ " entries but " ++ toString synced ++ " were synced"
  | .overrun field length position =>
      field.name ++ " of " ++ toString length ++ " bytes at offset " ++ toString position
        ++ " runs past the end of the log"
  | .cutShort field => "unexpected end of log while reading " ++ field.name
  | .other text => text

/-! ## The tree -/

/-- What a record cannot be read for. -/
inductive RecordFault where
  /-- Its bytes are not the encoding of a value. -/
  | undecodable (cause : FormatFault)
  /-- A reason reported in words. -/
  | other (text : String)
deriving DecidableEq, Repr

/-- The wording of a record fault. -/
def RecordFault.message : RecordFault → String
  | .undecodable cause => cause.message
  | .other text => text

/-- How the records of a tree fail to be a balanced search tree. -/
inductive TreeFault where
  /-- Two pointers lead to one node. -/
  | sharedNode (key : RankKey)
  /-- A node is checked before it is read. -/
  | notLoaded (tree : String) (key : RankKey)
  /-- A key is not between those of its ancestors. -/
  | outOfOrder (tree : String) (key : RankKey)
  /-- The subtrees of a node differ too much in height. -/
  | unbalanced (tree : String) (key : RankKey) (left right : Nat)
  /-- A node does not store its height. -/
  | wrongHeight (tree : String) (key : RankKey) (stored actual : Nat)
  /-- A walk goes down too far. -/
  | tooDeep (tree : String) (levels : Nat)
  /-- A rotation to the right needs a left child. -/
  | rightRotation (key : RankKey)
  /-- A rotation to the left needs a right child. -/
  | leftRotation (key : RankKey)
  /-- A node that is higher on the left has no left child. -/
  | leftHeavy (key : RankKey)
  /-- A node that is higher on the right has no right child. -/
  | rightHeavy (key : RankKey)
  /-- More pointers were followed than a tree may have. -/
  | endless (tree : String) (steps : Nat)
  /-- A fault reported in words. -/
  | other (text : String)
deriving DecidableEq, Repr

/-- The wording of a tree fault. -/
def TreeFault.message : TreeFault → String
  | .sharedNode key => "node " ++ key.render ++ " reachable through more than one pointer"
  | .notLoaded tree key => tree ++ ": node " ++ key.render ++ " was not loaded"
  | .outOfOrder tree key => tree ++ ": node " ++ key.render ++ " is out of order"
  | .unbalanced tree key left right =>
      tree ++ ": node " ++ key.render ++ " is unbalanced (left " ++ toString left ++ ", right "
        ++ toString right ++ ")"
  | .wrongHeight tree key stored actual =>
      tree ++ ": node " ++ key.render ++ " stores height " ++ toString stored
        ++ " but has height " ++ toString actual
  | .tooDeep tree levels => "tree " ++ tree ++ " deeper than " ++ toString levels ++ " levels"
  | .rightRotation key => "right rotation at " ++ key.render ++ " without a left child"
  | .leftRotation key => "left rotation at " ++ key.render ++ " without a right child"
  | .leftHeavy key => "left-heavy node " ++ key.render ++ " has no left child"
  | .rightHeavy key => "right-heavy node " ++ key.render ++ " has no right child"
  | .endless tree steps => "tree " ++ tree ++ " has no end within " ++ toString steps ++ " steps"
  | .other text => text

/-! ## Failures of any kind -/

/-- A failure of any kind. -/
inductive Failure where
  /-- An operation on a file failed. -/
  | io (cause : IoFault)
  /-- A log header is not one of this format. -/
  | invalidHeader
  /-- A field could not be read. -/
  | decode (field : String) (cause : IoFault)
  /-- A field could not be written. -/
  | encode (field : String) (cause : IoFault)
  /-- A log file is damaged. -/
  | corruptedLog (cause : LogDamage)
  /-- A log takes no more writes after an earlier one failed. -/
  | logFailed
  /-- A store directory is in use. -/
  | locked (cause : IoFault)
  /-- The holder of a lock inside the process died. -/
  | lockPoisoned
  /-- A store of another kind failed. -/
  | store (text : String)
  /-- A record cannot be read. -/
  | malformedRecord (key : Bytes) (cause : RecordFault)
  /-- A pointer leads to a record that is missing. -/
  | danglingReference (key : Bytes)
  /-- Another entity has the rank key already. -/
  | occupied (key : Bytes)
  /-- A tree is not a balanced search tree. -/
  | integrity (cause : TreeFault)
  /-- A tree may not have this name. -/
  | invalidTreeName (name : String)
  /-- Data is not the encoding of a value. -/
  | format (cause : FormatFault)
deriving DecidableEq, Repr

namespace Failure

/-- A failure in words. -/
def message : Failure → String
  | io cause => "I/O error: " ++ cause.message
  | invalidHeader => "Invalid header"
  | decode field cause => "Failed to decode " ++ field ++ ": " ++ cause.message
  | encode field cause => "Failed to encode " ++ field ++ ": " ++ cause.message
  | corruptedLog cause => "Corrupted log: " ++ cause.message
  | logFailed => "Log is unusable after an earlier write failure"
  | locked cause => "Store directory is locked by another process: " ++ cause.message
  | lockPoisoned => "Mutex was poisoned"
  | store text => "Store failure: " ++ text
  | malformedRecord key cause =>
      "Malformed record at " ++ Escaped.bytes key ++ ": " ++ cause.message
  | danglingReference key => "Dangling reference to " ++ Escaped.bytes key
  | occupied key => "Rank key " ++ Escaped.bytes key ++ " is already occupied"
  | integrity cause => "Integrity violation: " ++ cause.message
  | invalidTreeName name => "Invalid tree name: " ++ Quoted.text name
  | format cause => cause.message

/-- Whether the stored data can no longer be trusted. -/
def isFatal : Failure → Bool
  | malformedRecord .. | danglingReference _ | integrity _ | corruptedLog _ | format _ => true
  | io _ | invalidHeader | decode .. | encode .. | logFailed | locked _ | lockPoisoned | store _
  | occupied _ | invalidTreeName _ => false

end Failure

end Leaderboard
