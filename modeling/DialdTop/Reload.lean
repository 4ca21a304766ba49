import DialdTop.AccessDecision
import DialdTop.Operations

/-!
# What a reload costs

`reread_conf` frees the list before it looks at the file, `yyerror` exits, and
the log lines have a fixed size.  The reload is harmless exactly when nothing
of this strikes.
-/

namespace DialdTop

open Program

/-- What identifies a connection; the flags may change. -/
def Port.connection (p : Port) : Int × SockAddr × Option (List Byte) :=
  (p.fd, p.sa, p.userid)

/-- The list in force after a reload which succeeds. -/
def reloaded (env : Env) (s : Server) (es : List ConfEntry) : List AuthData :=
  (ConfEntry.datas (confGarbage env { s with aq := [] }) 0 es).reverse

/-- A file whose last line lacks its newline. -/
def Env.unterminated : Env :=
  { Env.obliging with fopen := fun s => some (nextFd s, bytes "bob 10.0.0.1 255.0.0.0") }

end DialdTop
