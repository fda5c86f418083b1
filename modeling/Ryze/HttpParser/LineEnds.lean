import Ryze.HttpParser.HttpHeader

set_option autoImplicit false

/-! # Which line ends the parsers find

The scan for CR LF steps over CRs in pairs, so it sees a line end exactly if the run of CRs directly
in front of the LF is odd. It therefore takes the first CR LF of a line if an even number of CRs
stands in front of it, and passes it otherwise; if it passes all of them it records nothing. -/

namespace Ryze

open CLib

section Scan

variable {data t : List UInt8} {c : UInt8} {q : Nat}

end Scan

/-! ## The request line -/

end Ryze
