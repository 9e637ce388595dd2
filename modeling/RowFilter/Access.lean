import RowFilter.Command

/-!
# Which columns may be filtered on

A column is admitted if the allow list names it, or is empty, and the deny list does not name it.
-/

namespace RowFilter

/-- An allow list, where empty means any, and a deny list. -/
structure Access where
  allowed : List String
  denied : List String
deriving DecidableEq, Repr

namespace Access

def everything : Access := ⟨[], []⟩

def allow (a : Access) (fields : List String) : Access := { a with allowed := fields }

def deny (a : Access) (fields : List String) : Access := { a with denied := fields }

/-- Whether a column may be filtered on. -/
def admits (a : Access) (field : String) : Bool :=
  (a.allowed.isEmpty || a.allowed.contains field) && !a.denied.contains field

def check (a : Access) (field : String) : Except ClauseError Unit :=
  if a.admits field then .ok () else .error (.fieldNotAllowed field)

end Access

end RowFilter
