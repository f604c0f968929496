import AsceticDdd.Concurrency.Interleaving
import AsceticDdd.Concurrency.WaitsFor
import AsceticDdd.Order.FirstN
import AsceticDdd.Text.Decimal
import AsceticDdd.Text.Code
import AsceticDdd.Text.Separated
import AsceticDdd.Text.Utf8
import AsceticDdd.Text.Percent
import AsceticDdd.Crypto.Aead
import AsceticDdd.Postgres.Snapshot
import AsceticDdd.Postgres.Transactions
import AsceticDdd.Postgres.Locks
import AsceticDdd.Postgres.Like
import AsceticDdd.Postgres.Jsonb
import AsceticDdd.Order.Keyed
import AsceticDdd.Postgres.Ordered
import AsceticDdd.Outbox.Message
import AsceticDdd.Outbox.Ring
import AsceticDdd.Outbox.Store
import AsceticDdd.Outbox.Database
import AsceticDdd.Outbox.Dispatch
import AsceticDdd.Outbox.Reclaim
import AsceticDdd.Outbox.Move
import AsceticDdd.Outbox.Migrate
import AsceticDdd.Outbox.System
import AsceticDdd.Outbox.Position
import AsceticDdd.Outbox.Invariant
import AsceticDdd.Outbox.Guarantee
import AsceticDdd.Outbox.Assertions
import AsceticDdd.Outbox.Stability
import AsceticDdd.Outbox.Preservation
import AsceticDdd.Outbox.Commit
import AsceticDdd.Outbox.Ensured
import AsceticDdd.Outbox.Dispatcher
import AsceticDdd.Outbox.Mover
import AsceticDdd.Outbox.Reclaimer
import AsceticDdd.Outbox.Migrator
import AsceticDdd.Outbox.Effect
import AsceticDdd.Outbox.Assign
import AsceticDdd.Outbox.Reachable
import AsceticDdd.Outbox.Serving
import AsceticDdd.Outbox.Calls
import AsceticDdd.Outbox.HandedOn
import AsceticDdd.Outbox.Moved
import AsceticDdd.Outbox.Owed
import AsceticDdd.Outbox.RingMade
import AsceticDdd.Outbox.Rewound
import AsceticDdd.Outbox.Origin
import AsceticDdd.Outbox.Reclaimed
import AsceticDdd.Outbox.GoneBelow
import AsceticDdd.Inbox.Message
import AsceticDdd.Inbox.Store
import AsceticDdd.Inbox.Database
import AsceticDdd.Inbox.Dispatch
import AsceticDdd.Inbox.Operate
import AsceticDdd.Inbox.System
import AsceticDdd.Inbox.Frame
import AsceticDdd.Inbox.Invariant
import AsceticDdd.Inbox.Waking
import AsceticDdd.Inbox.Dispatcher
import AsceticDdd.Inbox.Operator
import AsceticDdd.Inbox.Commit
import AsceticDdd.Inbox.Reachable
import AsceticDdd.Inbox.Handling
import AsceticDdd.Inbox.Numbering
import AsceticDdd.Inbox.Arrival
import AsceticDdd.Inbox.Waits
import AsceticDdd.Inbox.Holding
import AsceticDdd.Inbox.Turns
import AsceticDdd.Inbox.NoCycle
import AsceticDdd.Kms.Floor
import AsceticDdd.Kms.Cipher
import AsceticDdd.Kms.Named
import AsceticDdd.Kms.Cached
import AsceticDdd.Kms.Forgetting
import AsceticDdd.Kms.Keyring
import AsceticDdd.Dek.Store
import AsceticDdd.Dek.Rewrap
import AsceticDdd.Dek.Retired
import AsceticDdd.Dek.Canonical
import AsceticDdd.Dek.Versioned
import AsceticDdd.Dek.Bound
import AsceticDdd.Dek.Opened
import AsceticDdd.Specification.Jsonpath.Accepts
import AsceticDdd.Specification.Pg.Numbered
import AsceticDdd.Specification.Pg.Place
import AsceticDdd.Specification.Exact
import AsceticDdd.Specification.Moments
import AsceticDdd.Specification.Kleene
import AsceticDdd.Specification.Scalar
import AsceticDdd.Specification.View
import AsceticDdd.Concurrency.Behaviour
import AsceticDdd.Bus.Returning
import AsceticDdd.Bus.Offsets
import AsceticDdd.Saga.Recovery
import AsceticDdd.Saga.Serialization
import AsceticDdd.Concurrency.Compensation
import AsceticDdd.Saga.Nested
import AsceticDdd.Saga.AllOrNothing
import AsceticDdd.Saga.Forgotten
import AsceticDdd.Saga.Driven
import AsceticDdd.Session.IdentityMap.Window
import AsceticDdd.Session.IdentityMap.State
import AsceticDdd.Session.IdentityMap.Knows
import AsceticDdd.Session.IdentityMap.Answers
import AsceticDdd.Session.IdentityMap.Shared
import AsceticDdd.Session.IdentityMap.Recent
import AsceticDdd.Session.IdentityMap.Course
import AsceticDdd.Session.Pg.Nesting
import AsceticDdd.Session.Composite
import AsceticDdd.EventStore.History
import AsceticDdd.Migrations.Once
import AsceticDdd.Outbox.Named
import AsceticDdd.Outbox.Plain
import AsceticDdd.Outbox.Selected
import AsceticDdd.Outbox.Widened
import AsceticDdd.Postgres.Json
import AsceticDdd.Inbox.Identity
import AsceticDdd.Inbox.Swept
import AsceticDdd.Specification.Jsonpath.Lexemes
import AsceticDdd.Specification.Jsonpath.Tokenized
import AsceticDdd.Specification.Jsonpath.Template
import AsceticDdd.Specification.Jsonpath.Bind
import AsceticDdd.Specification.Jsonpath.Match
import AsceticDdd.Machine.Versions
import AsceticDdd.Kms.Kek
import AsceticDdd.Kms.Service
import AsceticDdd.Kms.Held
import AsceticDdd.Kms.Wrapped
import AsceticDdd.Kms.Tidy
import AsceticDdd.Kms.Rotated
import AsceticDdd.Dek.Forgotten
import AsceticDdd.Dek.Lasting
import AsceticDdd.Dek.Layered
import AsceticDdd.Crypto.Signatures
import AsceticDdd.Kms.PublicKeyring
import AsceticDdd.Kms.Signing
import AsceticDdd.Kms.Published
import AsceticDdd.Kms.Signed
import AsceticDdd.Kms.Tampered
