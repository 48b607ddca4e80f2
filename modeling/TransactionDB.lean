import TransactionDB.Engine.Reinsert
import TransactionDB.Sql.Arithmetic
import TransactionDB.Sql.Atomicity
import TransactionDB.Sql.Constraints
import TransactionDB.Sql.Encoding
import TransactionDB.Sql.GrantStore
import TransactionDB.Sql.GrantText
import TransactionDB.Sql.IndexKeys
import TransactionDB.Sql.Join
import TransactionDB.Sql.Patterns
import TransactionDB.Sql.PrimaryKey
import TransactionDB.Sql.Printf
import TransactionDB.Sql.RowWidths
import TransactionDB.Sql.StarExpansion
import TransactionDB.Sql.SubqueryErrors
import TransactionDB.Sql.ThreeValued
import TransactionDB.Sql.WindowAggregates
import TransactionDB.Sql.WriterIsolation
import TransactionDB.Storage.Cursor
import TransactionDB.Storage.MemoryFile
import TransactionDB.Storage.Reopen
import TransactionDB.Storage.WalRuns
import TransactionDB.Txn.FailedCommit
import TransactionDB.Txn.MaxTxnid
import TransactionDB.Txn.WaitDie
